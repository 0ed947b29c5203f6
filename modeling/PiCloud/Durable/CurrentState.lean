import Mathlib.Data.List.Nodup
import PiCloud.Lib.Record

/-!
# Durable.CurrentState

The state that PostgreSQL keeps of native documents with no history, and of submissions
(`current-state.ts`): one row an identity, which each native batch folds its writes into.

* `prepareCurrentStates`: the rows that a batch leaves, from the rows that it finds.
* `rowRun`: what the writes of a batch do to the row of one identity.
* `prepareWrites_row`, `prepareWrites_of_rowRun`: the batch is that, identity by identity.
-/

namespace PiCloud
namespace Durable

open Lib

inductive DocumentScope where
  | session
  | conversation (conversationId : Nat)
  | task (taskId : Nat)
deriving DecidableEq

/-- A document without its content. -/
structure DocumentRecord where
  id : Nat
  kind : String
  scope : DocumentScope
  history : Option String := none
deriving DecidableEq

/-- The content that a write carries: a whole value, or the operations that change one. -/
inductive DocumentContent (Op : Type) where
  | base (version : Nat) (value : Members)
  | delta (version : Nat) (ops : List Op)

def DocumentContent.version {Op : Type} : DocumentContent Op → Nat
  | .base version _ | .delta version _ => version

inductive ValueKind where
  | conversation | entry | task | submission
deriving DecidableEq

inductive DurableRecordKind where
  | value (kind : ValueKind)
  | document
deriving DecidableEq

inductive StorageWrite (Op : Type) where
  | value (kind : ValueKind) (id : Nat) (value : Members)
  | documentCreate (record : DocumentRecord) (content : DocumentContent Op)
  | documentChange (id : Nat) (content : DocumentContent Op)
  | documentRetire (id : Nat)
  | documentCopy (record : DocumentRecord)

namespace StorageWrite

variable {Op : Type}

def id : StorageWrite Op → Nat
  | .value _ id _ | .documentChange id _ | .documentRetire id => id
  | .documentCreate record _ | .documentCopy record => record.id

def createdId : StorageWrite Op → Option Nat
  | .documentCreate record _ => some record.id
  | _ => none

def valueId : StorageWrite Op → Option Nat
  | .value _ id _ => some id
  | _ => none

def isEdit : StorageWrite Op → Bool
  | .documentChange .. | .documentRetire _ => true
  | _ => false

def isSubmission : StorageWrite Op → Bool
  | .value .submission _ _ => true
  | _ => false

end StorageWrite

/-- A native commit. The writer claims no identity both for a document and for a value
(`ID … is written more than once`). -/
structure DurableBatch (Op : Type) where
  seq : Nat
  nextId : Nat
  writes : List (StorageWrite Op)
  claimed : ∀ id ∈ writes.filterMap StorageWrite.createdId,
    id ∉ writes.filterMap StorageWrite.valueId

/-- The keys that `origin` keeps of a record's fields. -/
structure Origin where
  cloudSession : Option JsString
  run : Option JsString
  turn : Option JsString
deriving DecidableEq

/-- The text of a row. The content of a document is a base in every row. -/
inductive CurrentBody where
  | submission (id : Nat) (value : Members)
  | document (record : DocumentRecord) (version : Nat) (value : Members)

def CurrentBody.id : CurrentBody → Nat
  | .submission id _ => id
  | .document record _ _ => record.id

def CurrentBody.kind : CurrentBody → DurableRecordKind
  | .submission .. => .value .submission
  | .document .. => .document

def CurrentBody.record : CurrentBody → Option DocumentRecord
  | .submission .. => none
  | .document record _ _ => some record

structure CurrentStateRow where
  seq : Nat
  ordinal : Nat
  body : CurrentBody
  deltaCount : Nat
  createdSeq : Option Nat
  retiredSeq : Option Nat
  cloudOrigin : Option Origin

def CurrentStateRow.id (row : CurrentStateRow) : Nat := row.body.id

def CurrentStateRow.kind (row : CurrentStateRow) : DurableRecordKind := row.body.kind

/-- `NATIVE_HUMAN_INPUT_DOCUMENT` -/
def nativeHumanInputDocument : String := "pi-cloud.human-inputs"

def currentStateKinds : List String := ["pi.inbox", nativeHumanInputDocument, "pi.live"]

def DocumentScope.isConversation : DocumentScope → Bool
  | .conversation _ => true
  | _ => false

def isCurrentStateDocument (record : DocumentRecord) : Bool :=
  record.scope.isConversation && record.history = some "latest" &&
    currentStateKinds.contains record.kind

def isLiveDocument (record : DocumentRecord) : Bool :=
  record.kind = "pi.live" && isCurrentStateDocument record

def isRunningSlot (slot : Json) : Bool := isText (at? (some slot) "status") "running"

def isSettledLiveValue (value : Members) : Bool :=
  (value.get "generation").isNone &&
    match value.get "tools" with
    | some (.arr tools) => !tools.any isRunningSlot
    | _ => true

def isLiveRow (row : CurrentStateRow) : Bool :=
  match row.body with
  | .document record _ _ => isLiveDocument record
  | .submission .. => false

def isPendingLiveRow (row : CurrentStateRow) : Bool :=
  match row.body with
  | .document record _ value =>
    row.retiredSeq.isNone && isLiveDocument record && !isSettledLiveValue value
  | .submission .. => false

theorem isPendingLiveRow.live {row : CurrentStateRow} (h : isPendingLiveRow row = true) :
    isLiveRow row = true := by
  unfold isPendingLiveRow at h
  unfold isLiveRow
  cases hb : row.body with
  | submission => simp [hb] at h
  | document record version value =>
    simp only [hb, Bool.and_eq_true] at h ⊢
    exact h.1.2

/-- A row of `pi_durable_records`: the kind and the fields that the current state reads. -/
structure IndexedRecord where
  kind : DurableRecordKind
  scope : Option DocumentScope := none
  nativeKind : Option String := none
  currentOnly : Bool := false
  createdSeq : Option Nat := none
deriving DecidableEq

def currentOnly (record : DocumentRecord) : Bool :=
  !record.scope.isConversation || record.history = some "latest"

def indexDocument (record : DocumentRecord) (createdAt : Option Nat) : IndexedRecord where
  kind := .document
  scope := some record.scope
  nativeKind := some record.kind
  currentOnly := currentOnly record
  createdSeq := createdAt

def IndexedRecord.requiresRow (indexed : IndexedRecord) : Bool :=
  indexed.kind = .value .submission ||
    (indexed.kind = .document && indexed.currentOnly &&
      (indexed.scope.map DocumentScope.isConversation).getD false &&
      (indexed.nativeKind.map currentStateKinds.contains).getD false)

def currentStateId {Op : Type} : StorageWrite Op → Option Nat
  | .value .submission id _ | .documentChange id _ | .documentRetire id => some id
  | .documentCreate record _ => some record.id
  | _ => none

def currentStateIds {Op : Type} (batch : DurableBatch Op) : List Nat :=
  (batch.writes.filterMap currentStateId).eraseDups

/-- The pinned position of the first batch that a checkpoint lacks. -/
structure ReplayReference where
  topic : JsString
  partition : Nat
  offset : Nat
  seq : Nat
deriving DecidableEq

/-- An indexed record with its row and the reference that the row holds. -/
structure CurrentStateSource where
  indexedId : Nat
  indexed : IndexedRecord
  row : Option CurrentStateRow
  replay : Option ReplayReference

/-! ## The fold -/

/-- The maps of `prepareCurrentStates`. -/
structure Preparing where
  rows : Nat → Option CurrentStateRow := fun _ => none
  changed : List Nat := []
  omitted : List Nat := []

def Preparing.put (p : Preparing) (id ordinal : Nat) (row : CurrentStateRow) : Preparing where
  rows := Function.update p.rows id (some row)
  changed := if id ∈ p.changed then p.changed else p.changed ++ [id]
  omitted := p.omitted ++ [ordinal]

structure CurrentStates where
  rows : List CurrentStateRow
  omitted : List Nat

/-- The rows that the batch finds. -/
def previousRows (previous : List CurrentStateSource) :
    Except String (Nat → Option CurrentStateRow) :=
  previous.foldlM (fun rows source =>
    match source.row with
    | some row => .ok (Function.update rows row.id (some row))
    | none =>
      if source.indexed.requiresRow then .error "Native current state is missing" else .ok rows)
    fun _ => none

section Fold

variable {Op : Type} (applyImmutableBatches : Members → List (List Op) → Except String Members)

/-- The row that a write leaves where it finds `row`; `none` for a write that is no concern of the
current state. `taken` says that the identity is known or changed. -/
def writeRow (seq ordinal : Nat) (origins : Nat → Option Origin) (taken : Bool)
    (write : StorageWrite Op) (row : Option CurrentStateRow) :
    Except String (Option CurrentStateRow) :=
  match write with
  | .value .submission id value =>
    .ok (some { seq, ordinal, body := .submission id value, deltaCount := 0, createdSeq := none,
                retiredSeq := none, cloudOrigin := origins id })
  | .documentCreate record content =>
    if isCurrentStateDocument record then
      if taken then .error "Native record ID ownership changed"
      else
        match content with
        | .delta .. => .error "Native document needs an initial base"
        | .base version value =>
          .ok (some { seq, ordinal, body := .document record version value, deltaCount := 0,
                      createdSeq := some seq, retiredSeq := none,
                      cloudOrigin := origins record.id })
    else .ok none
  | .documentChange _ content =>
    match row with
    | none => .ok none
    | some previous =>
      match previous.body, previous.retiredSeq with
      | .document record version value, none =>
        match content with
        | .base version' value' =>
          .ok (some { previous with
            seq, ordinal, body := .document record version' value', deltaCount := 0 })
        | .delta version' ops =>
          if version' ≠ version then .error "Native document version mismatch"
          else
            match applyImmutableBatches value [ops] with
            | .error e => .error e
            | .ok value' =>
              .ok (some { previous with
                seq, ordinal, body := .document record version' value'
                deltaCount := previous.deltaCount + 1 })
      | _, _ => .error "Native current document is unavailable"
  | .documentRetire _ =>
    match row with
    | none => .ok none
    | some previous =>
      match previous.body, previous.retiredSeq with
      | .document record version _, none =>
        -- the identity stays, the content does not
        .ok (some { previous with
          seq, ordinal, body := .document record version [], retiredSeq := some seq })
      | _, _ => .error "Native current document is unavailable"
  | _ => .ok none

def prepareWrite (seq : Nat) (origins : Nat → Option Origin) (known : List Nat) (p : Preparing)
    (write : StorageWrite Op × Nat) : Except String Preparing :=
  let id := write.1.id
  match writeRow applyImmutableBatches seq write.2 origins (known.contains id || p.changed.contains id)
      write.1 (p.rows id) with
  | .error e => .error e
  | .ok none => .ok p
  | .ok (some row) => .ok (p.put id write.2 row)

def prepareCurrentStates (batch : DurableBatch Op) (origins : Nat → Option Origin)
    (previous : List CurrentStateSource) (included : StorageWrite Op → Nat → Bool) :
    Except String CurrentStates :=
  match previousRows previous with
  | .error e => .error e
  | .ok rows =>
    match (batch.writes.zipIdx.filter fun w => included w.1 w.2).foldlM
        (prepareWrite applyImmutableBatches batch.seq origins (previous.map (·.indexedId)))
        { rows } with
    | .error e => .error e
    | .ok p => .ok { rows := p.changed.filterMap p.rows, omitted := p.omitted }

/-! ## One identity at a time -/

/-- What a write does to the row of `id`, and whether the batch has changed it. -/
def rowStep (seq : Nat) (origins : Nat → Option Origin) (known : Bool) (id : Nat)
    (state : Option CurrentStateRow × Bool) (write : StorageWrite Op × Nat) :
    Except String (Option CurrentStateRow × Bool) :=
  if write.1.id = id then
    match writeRow applyImmutableBatches seq write.2 origins (known || state.2) write.1 state.1 with
    | .error e => .error e
    | .ok none => .ok state
    | .ok (some row) => .ok (some row, true)
  else .ok state

def rowRun (seq : Nat) (origins : Nat → Option Origin) (known : Bool) (id : Nat)
    (writes : List (StorageWrite Op × Nat)) (state : Option CurrentStateRow × Bool) :
    Except String (Option CurrentStateRow × Bool) :=
  writes.foldlM (rowStep applyImmutableBatches seq origins known id) state

def Preparing.at (p : Preparing) (id : Nat) : Option CurrentStateRow × Bool :=
  (p.rows id, p.changed.contains id)

theorem Preparing.at_put (p : Preparing) (id ordinal : Nat) (row : CurrentStateRow) (j : Nat) :
    (p.put id ordinal row).at j = if id = j then (some row, true) else p.at j := by
  unfold Preparing.at Preparing.put
  by_cases h : id = j
  · subst h
    by_cases hm : id ∈ p.changed
    · simp [hm]
    · simp [hm]
  · have hj : j ≠ id := Ne.symm h
    by_cases hm : id ∈ p.changed
    · simp [hm, h, Function.update_of_ne hj]
    · simp [hm, h, hj]

variable {applyImmutableBatches} {seq : Nat} {origins : Nat → Option Origin} {known : List Nat}

theorem prepareWrite_error {p : Preparing} {write : StorageWrite Op × Nat} {e : String}
    (h : prepareWrite applyImmutableBatches seq origins known p write = .error e) :
    rowStep applyImmutableBatches seq origins (known.contains write.1.id) write.1.id
      (p.at write.1.id) write = .error e := by
  unfold prepareWrite at h
  unfold rowStep Preparing.at
  rw [if_pos rfl]
  dsimp only at h ⊢
  cases hw : writeRow applyImmutableBatches seq write.2 origins
      (known.contains write.1.id || p.changed.contains write.1.id) write.1 (p.rows write.1.id) with
  | error e' =>
    rw [hw] at h
    cases h
    rfl
  | ok row =>
    rw [hw] at h
    cases row <;> cases h

theorem prepareWrite_ok {p p' : Preparing} {write : StorageWrite Op × Nat}
    (h : prepareWrite applyImmutableBatches seq origins known p write = .ok p') (id : Nat) :
    rowStep applyImmutableBatches seq origins (known.contains id) id (p.at id) write
      = .ok (p'.at id) := by
  unfold prepareWrite at h
  unfold rowStep
  dsimp only at h
  cases hw : writeRow applyImmutableBatches seq write.2 origins
      (known.contains write.1.id || p.changed.contains write.1.id) write.1 (p.rows write.1.id) with
  | error e =>
    rw [hw] at h
    cases h
  | ok row =>
    rw [hw] at h
    by_cases hid : write.1.id = id
    · subst hid
      rw [if_pos rfl]
      unfold Preparing.at
      dsimp only
      rw [hw]
      cases row with
      | none =>
        cases h
        rfl
      | some row =>
        cases h
        have hput := p.at_put write.1.id write.2 row write.1.id
        rw [if_pos rfl] at hput
        exact congrArg Except.ok hput.symm
    · rw [if_neg hid]
      cases row with
      | none =>
        cases h
        rfl
      | some row =>
        cases h
        rw [p.at_put, if_neg hid]

theorem prepareWrites_row {writes : List (StorageWrite Op × Nat)} {p p' : Preparing}
    (h : writes.foldlM (prepareWrite applyImmutableBatches seq origins known) p = .ok p')
    (id : Nat) :
    rowRun applyImmutableBatches seq origins (known.contains id) id writes (p.at id)
      = .ok (p'.at id) := by
  induction writes generalizing p with
  | nil =>
    cases h
    rfl
  | cons write writes ih =>
    rw [List.foldlM_cons] at h
    obtain ⟨q, hq, hrest⟩ := bind_eq_ok.mp h
    unfold rowRun
    rw [List.foldlM_cons, prepareWrite_ok hq id]
    exact ih hrest

theorem prepareWrites_of_rowRun {writes : List (StorageWrite Op × Nat)} {p : Preparing}
    (h : ∀ id, ∃ s, rowRun applyImmutableBatches seq origins (known.contains id) id writes (p.at id)
      = .ok s) :
    ∃ p', writes.foldlM (prepareWrite applyImmutableBatches seq origins known) p = .ok p' := by
  induction writes generalizing p with
  | nil => exact ⟨p, rfl⟩
  | cons write writes ih =>
    rw [List.foldlM_cons]
    cases hq : prepareWrite applyImmutableBatches seq origins known p write with
    | error e =>
      have hj := prepareWrite_error hq
      obtain ⟨s, hs⟩ := h write.1.id
      unfold rowRun at hs
      rw [List.foldlM_cons, hj] at hs
      cases hs
    | ok q =>
      refine ih fun id => ?_
      obtain ⟨s, hs⟩ := h id
      unfold rowRun at hs
      rw [List.foldlM_cons, prepareWrite_ok hq id] at hs
      exact ⟨s, hs⟩

theorem rowStep_at {id : Nat} {known : Bool} {s s' : Option CurrentStateRow × Bool}
    {write : StorageWrite Op × Nat} (hid : write.1.id = id)
    (h : rowStep applyImmutableBatches seq origins known id s write = .ok s') :
    ∃ x, writeRow applyImmutableBatches seq write.2 origins (known || s.2) write.1 s.1 = .ok x ∧
      s' = (x.or s.1, x.isSome || s.2) := by
  unfold rowStep at h
  rw [if_pos hid] at h
  split at h
  · cases h
  · rename_i hw
    cases h
    exact ⟨none, hw, rfl⟩
  · rename_i row hw
    cases h
    exact ⟨some row, hw, rfl⟩

/-! ## What a batch leaves of a row -/

theorem writeRow_id {write : StorageWrite Op} {ordinal : Nat} {taken : Bool}
    {row : Option CurrentStateRow} {r : CurrentStateRow}
    (h : writeRow applyImmutableBatches seq ordinal origins taken write row = .ok (some r))
    (hrow : ∀ q, row = some q → q.id = write.id) : r.id = write.id ∧ r.seq = seq := by
  unfold writeRow at h
  cases write with
  | value kind id value =>
    cases kind <;> cases h
    exact ⟨rfl, rfl⟩
  | documentCreate record content =>
    dsimp only at h
    split at h
    · split at h
      · cases h
      · cases content <;> cases h
        exact ⟨rfl, rfl⟩
    · cases h
  | documentChange id content =>
    cases row with
    | none => cases h
    | some q =>
      have hq := hrow q rfl
      unfold CurrentStateRow.id at hq ⊢
      dsimp only at h
      split at h
      · rename_i hb _
        rw [hb] at hq
        cases content with
        | base =>
          cases h
          exact ⟨hq, rfl⟩
        | delta =>
          dsimp only at h
          split at h
          · cases h
          · split at h
            · cases h
            · cases h
              exact ⟨hq, rfl⟩
      · cases h
  | documentRetire id =>
    cases row with
    | none => cases h
    | some q =>
      have hq := hrow q rfl
      unfold CurrentStateRow.id at hq ⊢
      dsimp only at h
      split at h
      · rename_i hb _
        rw [hb] at hq
        cases h
        exact ⟨hq, rfl⟩
      · cases h
  | documentCopy => cases h

theorem writeRow_created {write : StorageWrite Op} {ordinal : Nat} {taken : Bool}
    {row : Option CurrentStateRow} {r : CurrentStateRow}
    (h : writeRow applyImmutableBatches seq ordinal origins taken write row = .ok (some r))
    (hk : r.kind = .value .submission) : r.createdSeq = none := by
  cases write with
  | value kind id value =>
    cases kind <;> cases h
    rfl
  | documentCreate record content =>
    unfold writeRow at h
    dsimp only at h
    split at h
    · split at h
      · cases h
      · cases content <;> cases h
        cases hk
    · cases h
  | documentChange id content =>
    cases row with
    | none => cases h
    | some q =>
      unfold writeRow at h
      dsimp only at h
      split at h
      · cases content with
        | base =>
          cases h
          cases hk
        | delta =>
          dsimp only at h
          split at h
          · cases h
          · split at h
            · cases h
            · cases h
              cases hk
      · cases h
  | documentRetire id =>
    cases row with
    | none => cases h
    | some q =>
      unfold writeRow at h
      dsimp only at h
      split at h
      · cases h
        cases hk
      · cases h
  | documentCopy => cases h

/-- What holds of every row of an identity. -/
structure RowOf (id : Nat) (r : CurrentStateRow) : Prop where
  id : r.id = id
  created : r.kind = .value .submission → r.createdSeq = none

/-- The row of `id` after a part of the batch, from the row that the batch found. -/
structure RowFrom (seq id : Nat) (found : Option CurrentStateRow)
    (s : Option CurrentStateRow × Bool) : Prop where
  untouched : s.2 = false → s.1 = found
  written : s.2 = true → ∃ r, s.1 = some r ∧ r.seq = seq
  rowOf : ∀ r, s.1 = some r → RowOf id r

theorem RowFrom.start {id : Nat} {found : Option CurrentStateRow}
    (h : ∀ r, found = some r → RowOf id r) : RowFrom seq id found (found, false) where
  untouched _ := rfl
  written := nofun
  rowOf := h

theorem RowFrom.step {id : Nat} {found : Option CurrentStateRow} {known : Bool}
    {s s' : Option CurrentStateRow × Bool} {write : StorageWrite Op × Nat}
    (hs : RowFrom seq id found s)
    (h : rowStep applyImmutableBatches seq origins known id s write = .ok s') :
    RowFrom seq id found s' := by
  unfold rowStep at h
  split at h
  · rename_i hid
    split at h
    · cases h
    · cases h
      exact hs
    · rename_i row heq
      cases h
      obtain ⟨hrid, hseq⟩ := writeRow_id heq fun q hq => (hs.rowOf q hq).id.trans hid.symm
      refine ⟨nofun, fun _ => ⟨row, rfl, hseq⟩, ?_⟩
      intro r hr
      cases hr
      exact ⟨hrid.trans hid, writeRow_created heq⟩
  · cases h
    exact hs

theorem RowFrom.run {id : Nat} {found : Option CurrentStateRow} {known : Bool}
    {writes : List (StorageWrite Op × Nat)} {s s' : Option CurrentStateRow × Bool}
    (hs : RowFrom seq id found s)
    (h : rowRun applyImmutableBatches seq origins known id writes s = .ok s') :
    RowFrom seq id found s' := by
  unfold rowRun at h
  induction writes generalizing s with
  | nil =>
    cases h
    exact hs
  | cons write writes ih =>
    rw [List.foldlM_cons] at h
    obtain ⟨t, ht, hrest⟩ := bind_eq_ok.mp h
    exact ih (hs.step ht) hrest

theorem rowRun_of_absent {id : Nat} {known : Bool} {writes : List (StorageWrite Op × Nat)}
    (h : ∀ write ∈ writes, write.1.id ≠ id) (s : Option CurrentStateRow × Bool) :
    rowRun applyImmutableBatches seq origins known id writes s = .ok s := by
  induction writes with
  | nil => rfl
  | cons write writes ih =>
    unfold rowRun
    rw [List.foldlM_cons]
    unfold rowStep
    rw [if_neg (h write List.mem_cons_self)]
    exact ih fun w hw => h w (List.mem_cons_of_mem _ hw)

theorem writeRow_edit_unavailable {write : StorageWrite Op} (h : write.isEdit = true)
    {row : CurrentStateRow} (hrow : row.kind = .value .submission ∨ row.retiredSeq.isSome)
    (ordinal : Nat) (taken : Bool) :
    writeRow applyImmutableBatches seq ordinal origins taken write (some row)
      = .error "Native current document is unavailable" := by
  obtain ⟨rseq, rordinal, body, deltaCount, createdSeq, retiredSeq, cloudOrigin⟩ := row
  cases body with
  | submission => cases write <;> first | rfl | cases h
  | document record version value =>
    obtain hk | hr := hrow
    · cases hk
    · obtain ⟨t, rfl⟩ := Option.isSome_iff_exists.mp hr
      cases write <;> first | rfl | cases h

theorem writeRow_edit_none {write : StorageWrite Op} (h : write.isEdit = true)
    {row : CurrentStateRow} {ordinal : Nat} {taken : Bool}
    (hx : writeRow applyImmutableBatches seq ordinal origins taken write (some row) = .ok none) :
    False := by
  cases write with
  | documentChange id content =>
    unfold writeRow at hx
    dsimp only at hx
    split at hx
    · cases content with
      | base => cases hx
      | delta =>
        dsimp only at hx
        split at hx
        · cases hx
        · split at hx <;> cases hx
    · cases hx
  | documentRetire id =>
    unfold writeRow at hx
    dsimp only at hx
    split at hx <;> cases hx
  | value => cases h
  | documentCreate => cases h
  | documentCopy => cases h

theorem writeRow_edit {write : StorageWrite Op} (h : write.isEdit = true) (ordinal : Nat)
    (origins origins' : Nat → Option Origin) (taken taken' : Bool) (row : Option CurrentStateRow) :
    writeRow applyImmutableBatches seq ordinal origins' taken' write row
      = writeRow applyImmutableBatches seq ordinal origins taken write row := by
  cases write with
  | documentChange => rfl
  | documentRetire => rfl
  | value => cases h
  | documentCreate => cases h
  | documentCopy => cases h

theorem writeRow_other {write : StorageWrite Op} (h : write.isEdit = false) {ordinal : Nat}
    {row x : Option CurrentStateRow}
    (hw : writeRow applyImmutableBatches seq ordinal origins true write row = .ok x) :
    x = none ∨ ∃ r, x = some r ∧ r.kind = .value .submission := by
  cases write with
  | value kind id value =>
    cases kind <;> cases hw
    · exact .inl rfl
    · exact .inl rfl
    · exact .inl rfl
    · exact .inr ⟨_, rfl, rfl⟩
  | documentCreate record content =>
    unfold writeRow at hw
    dsimp only at hw
    split at hw <;> cases hw
    exact .inl rfl
  | documentChange => cases h
  | documentRetire => cases h
  | documentCopy =>
    cases hw
    exact .inl rfl

theorem writeRow_submission {write : StorageWrite Op} {ordinal : Nat} {q r : CurrentStateRow}
    (hq : q.kind = .value .submission)
    (hw : writeRow applyImmutableBatches seq ordinal origins true write (some q) = .ok (some r)) :
    r.kind = .value .submission := by
  cases he : write.isEdit with
  | false =>
    obtain hnone | ⟨r', hr', hk⟩ := writeRow_other he hw
    · cases hnone
    · cases hr'
      exact hk
  | true =>
    rw [writeRow_edit_unavailable he (.inl hq)] at hw
    cases hw

theorem rowRun_submission {id : Nat} {writes : List (StorageWrite Op × Nat)}
    {s s' : Option CurrentStateRow × Bool}
    (hs : ∃ q, s.1 = some q ∧ q.kind = .value .submission)
    (h : rowRun applyImmutableBatches seq origins true id writes s = .ok s') :
    ∃ q, s'.1 = some q ∧ q.kind = .value .submission := by
  unfold rowRun at h
  induction writes generalizing s with
  | nil =>
    cases h
    exact hs
  | cons write writes ih =>
    rw [List.foldlM_cons] at h
    obtain ⟨t, ht, hrest⟩ := bind_eq_ok.mp h
    refine ih ?_ hrest
    unfold rowStep at ht
    split at ht
    · obtain ⟨q, hq, hk⟩ := hs
      rw [hq, Bool.true_or] at ht
      split at ht
      · cases ht
      · cases ht
        exact ⟨q, hq, hk⟩
      · rename_i r hw
        cases ht
        exact ⟨r, rfl, writeRow_submission hk hw⟩
    · cases ht
      exact hs

theorem rowRun_edits {id : Nat} {eligible : Nat → Bool} (hid : eligible id = true)
    {origins' : Nat → Option Origin} (known' : Bool) {writes : List (StorageWrite Op × Nat)}
    {s s' : Option CurrentStateRow × Bool}
    (hlast : ∀ r, s'.1 = some r → r.kind = .document)
    (h : rowRun applyImmutableBatches seq origins true id writes s = .ok s') :
    rowRun applyImmutableBatches seq origins' known' id
      (writes.filter fun w => w.1.isEdit && eligible w.1.id) s = .ok s' := by
  unfold rowRun at h ⊢
  induction writes generalizing s with
  | nil => exact h
  | cons write writes ih =>
    rw [List.foldlM_cons] at h
    obtain ⟨t, ht, hrest⟩ := bind_eq_ok.mp h
    by_cases hw : write.1.id = id
    · unfold rowStep at ht
      rw [if_pos hw, Bool.true_or] at ht
      cases he : write.1.isEdit with
      | true =>
        rw [List.filter_cons_of_pos (by simp [he, hw, hid]), List.foldlM_cons]
        have hstep : rowStep applyImmutableBatches seq origins' known' id s write = .ok t := by
          unfold rowStep
          rw [if_pos hw, writeRow_edit he write.2 origins origins' true]
          exact ht
        rw [hstep]
        exact ih hrest
      | false =>
        rw [List.filter_cons_of_neg (by simp [he])]
        split at ht
        · cases ht
        · cases ht
          exact ih hrest
        · rename_i r heq
          cases ht
          obtain hnone | ⟨r', hr', hk⟩ := writeRow_other he heq
          · cases hnone
          · cases hr'
            obtain ⟨q, hq, hqk⟩ := rowRun_submission ⟨r, rfl, hk⟩ hrest
            rw [hlast q hq] at hqk
            cases hqk
    · unfold rowStep at ht
      rw [if_neg hw] at ht
      cases ht
      rw [List.filter_cons]
      split
      · rw [List.foldlM_cons]
        unfold rowStep
        rw [if_neg hw]
        exact ih hrest
      · exact ih hrest

theorem rowRun_of_unlisted {id : Nat} {known : Bool} {writes : List (StorageWrite Op × Nat)}
    (h : ∀ write ∈ writes, write.1.id = id → currentStateId write.1 = none)
    (s : Option CurrentStateRow × Bool) :
    rowRun applyImmutableBatches seq origins known id writes s = .ok s := by
  induction writes with
  | nil => rfl
  | cons write writes ih =>
    unfold rowRun
    rw [List.foldlM_cons]
    have hrest := ih fun w hw => h w (List.mem_cons_of_mem _ hw)
    unfold rowStep
    by_cases hid : write.1.id = id
    · rw [if_pos hid]
      have hnone := h write List.mem_cons_self hid
      obtain ⟨write, ordinal⟩ := write
      cases write with
      | value kind => cases kind <;> first | exact hrest | cases hnone
      | documentCopy => exact hrest
      | documentCreate => cases hnone
      | documentChange => cases hnone
      | documentRetire => cases hnone
    · rw [if_neg hid]
      exact hrest

theorem rowRun_submits {id : Nat} {writes : List (StorageWrite Op × Nat)}
    {s s' : Option CurrentStateRow × Bool} (hs : s.1.isSome)
    (hw : ∃ w ∈ writes, w.1.id = id ∧ w.1.isSubmission = true)
    (h : rowRun applyImmutableBatches seq origins true id writes s = .ok s') :
    ∃ q, s'.1 = some q ∧ q.kind = .value .submission := by
  unfold rowRun at h
  induction writes generalizing s with
  | nil => simp at hw
  | cons write writes ih =>
    rw [List.foldlM_cons] at h
    obtain ⟨t, ht, hrest⟩ := bind_eq_ok.mp h
    by_cases hfirst : write.1.id = id ∧ write.1.isSubmission = true
    · obtain ⟨x, hx, rfl⟩ := rowStep_at hfirst.1 ht
      obtain ⟨write, ordinal⟩ := write
      refine rowRun_submission ?_ hrest
      cases write with
      | value kind =>
        cases kind with
        | submission =>
          cases hx
          exact ⟨_, rfl, rfl⟩
        | conversation => cases hfirst.2
        | entry => cases hfirst.2
        | task => cases hfirst.2
      | documentCreate => cases hfirst.2
      | documentChange => cases hfirst.2
      | documentRetire => cases hfirst.2
      | documentCopy => cases hfirst.2
    · have hlater : ∃ w ∈ writes, w.1.id = id ∧ w.1.isSubmission = true := by
        obtain ⟨w, hm, hw⟩ := hw
        obtain rfl | hm := List.mem_cons.mp hm
        · exact absurd hw hfirst
        · exact ⟨w, hm, hw⟩
      refine ih ?_ hlater hrest
      by_cases hid : write.1.id = id
      · obtain ⟨x, _, rfl⟩ := rowStep_at hid ht
        cases x with
        | none => exact hs
        | some r => rfl
      · unfold rowStep at ht
        rw [if_neg hid] at ht
        cases ht
        exact hs

theorem writeRow_keeps {write : StorageWrite Op} {ordinal : Nat} {q r : CurrentStateRow}
    (hr : r.kind = .document)
    (hx : writeRow applyImmutableBatches seq ordinal origins true write (some q) = .ok (some r)) :
    q.kind = .document ∧ r.body.record = q.body.record ∧ r.createdSeq = q.createdSeq := by
  cases he : write.isEdit with
  | false =>
    obtain hnone | ⟨r', hr', hk⟩ := writeRow_other he hx
    · cases hnone
    · cases hr'
      cases hr.symm.trans hk
  | true =>
    obtain ⟨qseq, qordinal, body, deltaCount, createdSeq, retiredSeq, cloudOrigin⟩ := q
    cases body with
    | submission =>
      rw [writeRow_edit_unavailable he (.inl rfl)] at hx
      cases hx
    | document record version value =>
      cases retiredSeq with
      | some =>
        rw [writeRow_edit_unavailable he (.inr rfl)] at hx
        cases hx
      | none =>
        cases write with
        | documentChange id content =>
          unfold writeRow at hx
          dsimp only at hx
          cases content with
          | base =>
            cases hx
            exact ⟨rfl, rfl, rfl⟩
          | delta =>
            dsimp only at hx
            split at hx
            · cases hx
            · split at hx
              · cases hx
              · cases hx
                exact ⟨rfl, rfl, rfl⟩
        | documentRetire id =>
          cases hx
          exact ⟨rfl, rfl, rfl⟩
        | value => cases he
        | documentCreate => cases he
        | documentCopy => cases he

theorem rowRun_keeps {id : Nat} {writes : List (StorageWrite Op × Nat)} {q r : CurrentStateRow}
    {changed changed' : Bool} (hr : r.kind = .document)
    (h : rowRun applyImmutableBatches seq origins true id writes (some q, changed)
      = .ok (some r, changed')) :
    q.kind = .document ∧ r.body.record = q.body.record ∧ r.createdSeq = q.createdSeq := by
  unfold rowRun at h
  induction writes generalizing q changed with
  | nil =>
    cases h
    exact ⟨hr, rfl, rfl⟩
  | cons write writes ih =>
    rw [List.foldlM_cons] at h
    obtain ⟨t, ht, hrest⟩ := bind_eq_ok.mp h
    by_cases hid : write.1.id = id
    · obtain ⟨x, hx, rfl⟩ := rowStep_at hid ht
      cases x with
      | none => exact ih hrest
      | some p =>
        obtain ⟨hpk, hprec, hpcreated⟩ := ih hrest
        obtain ⟨hqk, hqrec, hqcreated⟩ := writeRow_keeps hpk hx
        exact ⟨hqk, hprec.trans hqrec, hpcreated.trans hqcreated⟩
    · unfold rowStep at ht
      rw [if_neg hid] at ht
      cases ht
      exact ih hrest

theorem rowRun_created {id : Nat} {writes : List (StorageWrite Op × Nat)}
    {s s' : Option CurrentStateRow × Bool} {record : DocumentRecord} {content : DocumentContent Op}
    {ordinal : Nat} (hw : (.documentCreate record content, ordinal) ∈ writes) (hid : record.id = id)
    (h : rowRun applyImmutableBatches seq origins true id writes s = .ok s') :
    isCurrentStateDocument record = false := by
  unfold rowRun at h
  induction writes generalizing s with
  | nil => cases hw
  | cons write writes ih =>
    rw [List.foldlM_cons] at h
    obtain ⟨t, ht, hrest⟩ := bind_eq_ok.mp h
    obtain rfl | hw := List.mem_cons.mp hw
    · have hwid : (StorageWrite.documentCreate record content, ordinal).1.id = id := hid
      obtain ⟨x, hx, _⟩ := rowStep_at hwid ht
      unfold writeRow at hx
      dsimp only at hx
      cases hc : isCurrentStateDocument record with
      | false => rfl
      | true =>
        rw [if_pos hc, Bool.true_or, if_pos rfl] at hx
        cases hx
    · exact ih hw hrest

theorem rowRun_edited {id : Nat} {known : Bool} {writes : List (StorageWrite Op × Nat)}
    {s s' : Option CurrentStateRow × Bool} (hs : s.1.isSome)
    (hw : (∃ w ∈ writes, w.1.id = id ∧ w.1.isEdit = true) ∨ s.2 = true)
    (h : rowRun applyImmutableBatches seq origins known id writes s = .ok s') : s'.2 = true := by
  unfold rowRun at h
  induction writes generalizing s with
  | nil =>
    cases h
    obtain ⟨_, hw, _⟩ | hs2 := hw
    · cases hw
    · exact hs2
  | cons write writes ih =>
    rw [List.foldlM_cons] at h
    obtain ⟨t, ht, hrest⟩ := bind_eq_ok.mp h
    by_cases hid : write.1.id = id
    · obtain ⟨x, hx, rfl⟩ := rowStep_at hid ht
      refine ih ?_ ?_ hrest
      · cases x with
        | none => exact hs
        | some r => rfl
      · cases x with
        | some r => exact .inr rfl
        | none =>
          obtain ⟨w, hmem, hw⟩ | hs2 := hw
          · obtain rfl | hmem := List.mem_cons.mp hmem
            · obtain ⟨q, hq⟩ := Option.isSome_iff_exists.mp hs
              rw [hq] at hx
              exfalso
              exact writeRow_edit_none hw.2 hx
            · exact .inl ⟨w, hmem, hw⟩
          · exact .inr hs2
    · unfold rowStep at ht
      rw [if_neg hid] at ht
      cases ht
      refine ih hs ?_ hrest
      obtain ⟨w, hmem, hw⟩ | hs2 := hw
      · obtain rfl | hmem := List.mem_cons.mp hmem
        · exact absurd hw.1 hid
        · exact .inl ⟨w, hmem, hw⟩
      · exact .inr hs2

theorem prepareWrites_omitted {writes : List (StorageWrite Op × Nat)} {p p' : Preparing}
    (h : writes.foldlM (prepareWrite applyImmutableBatches seq origins known) p = .ok p')
    {i : Nat} (hi : i ∈ p'.omitted) :
    i ∈ p.omitted ∨ ∃ w ∈ writes, w.2 = i ∧ ∀ record content,
      w.1 = .documentCreate record content → isCurrentStateDocument record = true := by
  induction writes generalizing p with
  | nil =>
    cases h
    exact .inl hi
  | cons write writes ih =>
    rw [List.foldlM_cons] at h
    obtain ⟨q, hq, hrest⟩ := bind_eq_ok.mp h
    obtain hiq | ⟨w, hw, hwi⟩ := ih hrest
    · unfold prepareWrite at hq
      dsimp only at hq
      split at hq
      · cases hq
      · cases hq
        exact .inl hiq
      · rename_i row hrow
        cases hq
        obtain hip | hiw := List.mem_append.mp hiq
        · exact .inl hip
        · refine .inr ⟨write, List.mem_cons_self, (List.mem_singleton.mp hiw).symm, ?_⟩
          intro record content hw
          rw [hw] at hrow
          unfold writeRow at hrow
          dsimp only at hrow
          by_contra hc
          rw [if_neg hc] at hrow
          cases hrow
    · exact .inr ⟨w, List.mem_cons_of_mem _ hw, hwi⟩

/-! ## The whole batch -/

theorem previousRows_get {view : Nat → Option CurrentStateRow}
    (hid : ∀ id r, view id = some r → r.id = id) {previous : List CurrentStateSource}
    (hview : ∀ source ∈ previous, source.row = view source.indexedId)
    {rows : Nat → Option CurrentStateRow} (h : previousRows previous = .ok rows) (id : Nat) :
    rows id = if id ∈ previous.map (·.indexedId) then view id else none := by
  unfold previousRows at h
  generalize hstart : (fun _ => none : Nat → Option CurrentStateRow) = start at h
  have hgen : rows id
      = if id ∈ previous.map (·.indexedId) ∧ (view id).isSome then view id else start id := by
    clear hstart
    induction previous generalizing start with
    | nil =>
      cases h
      simp
    | cons source previous ih =>
      rw [List.foldlM_cons] at h
      obtain ⟨next, hnext, hrest⟩ := bind_eq_ok.mp h
      rw [ih (fun s hs => hview s (List.mem_cons_of_mem _ hs)) next hrest]
      have hsource := hview source List.mem_cons_self
      cases hrow : source.row with
      | none =>
        rw [hrow] at hsource hnext
        dsimp only at hnext
        split at hnext
        · cases hnext
        · cases hnext
          by_cases hj : id = source.indexedId
          · subst hj
            rw [← hsource]
            simp
          · simp [hj]
      | some row =>
        rw [hrow] at hsource hnext
        cases hnext
        have hrid := hid _ row hsource.symm
        by_cases hj : id = source.indexedId
        · subst hj
          rw [← hsource, hrid]
          simp
        · have hne : id ≠ row.id := fun he => hj (he.trans hrid)
          simp [hj, Function.update_of_ne hne]
  rw [hgen, ← hstart]
  cases hv : view id with
  | none => simp
  | some r => simp

theorem previousRows_ok {previous : List CurrentStateSource}
    (h : ∀ source ∈ previous, source.row = none → source.indexed.requiresRow = false) :
    ∃ rows, previousRows previous = .ok rows := by
  unfold previousRows
  generalize (fun _ => none : Nat → Option CurrentStateRow) = start
  induction previous generalizing start with
  | nil => exact ⟨start, rfl⟩
  | cons source previous ih =>
    rw [List.foldlM_cons]
    have hrest := ih fun s hs => h s (List.mem_cons_of_mem _ hs)
    cases hrow : source.row with
    | none =>
      have := h source List.mem_cons_self hrow
      simp only [this]
      exact hrest _
    | some row => exact hrest _

def foundRow (previous : List CurrentStateSource) (view : Nat → Option CurrentStateRow) (id : Nat) :
    Option CurrentStateRow :=
  if id ∈ previous.map (·.indexedId) then view id else none

theorem foundRow_rowOf {previous : List CurrentStateSource} {view : Nat → Option CurrentStateRow}
    (hview : ∀ id r, view id = some r → RowOf id r) (id : Nat) (r : CurrentStateRow)
    (h : foundRow previous view id = some r) : RowOf id r := by
  unfold foundRow at h
  split at h
  · exact hview id r h
  · cases h

theorem prepareWrite_nodup {p p' : Preparing} {write : StorageWrite Op × Nat}
    (hp : p.changed.Nodup)
    (h : prepareWrite applyImmutableBatches seq origins known p write = .ok p') :
    p'.changed.Nodup := by
  unfold prepareWrite at h
  dsimp only at h
  split at h
  · cases h
  · cases h
    exact hp
  · cases h
    unfold Preparing.put
    dsimp only
    split
    · exact hp
    · rename_i hm
      rw [← List.concat_eq_append]
      exact List.Nodup.concat hm hp

theorem prepareWrites_nodup {writes : List (StorageWrite Op × Nat)} {p p' : Preparing}
    (hp : p.changed.Nodup)
    (h : writes.foldlM (prepareWrite applyImmutableBatches seq origins known) p = .ok p') :
    p'.changed.Nodup := by
  induction writes generalizing p with
  | nil =>
    cases h
    exact hp
  | cons write writes ih =>
    rw [List.foldlM_cons] at h
    obtain ⟨q, hq, hrest⟩ := bind_eq_ok.mp h
    exact ih (prepareWrite_nodup hp hq) hrest

theorem nodup_rows {rows : Nat → Option CurrentStateRow} {ids : List Nat} (hids : ids.Nodup)
    (hrows : ∀ id r, rows id = some r → r.id = id) :
    ((ids.filterMap rows).map CurrentStateRow.id).Nodup := by
  rw [List.map_filterMap]
  refine List.Nodup.filterMap ?_ hids
  intro i j id hi hj
  obtain ⟨r, hr, rfl⟩ := Option.map_eq_some_iff.mp hi
  obtain ⟨q, hq, hid⟩ := Option.map_eq_some_iff.mp hj
  rw [← hrows i r hr, ← hrows j q hq, hid]

/-- The rows that `prepareCurrentStates` returns are the rows that the batch has written. -/
theorem prepareCurrentStates_row {batch : DurableBatch Op} {previous : List CurrentStateSource}
    {included : StorageWrite Op → Nat → Bool} {view : Nat → Option CurrentStateRow}
    (hrow : ∀ id r, view id = some r → RowOf id r)
    (hview : ∀ source ∈ previous, source.row = view source.indexedId) {states : CurrentStates}
    (h : prepareCurrentStates applyImmutableBatches batch origins previous included = .ok states) :
    (states.rows.map CurrentStateRow.id).Nodup ∧
    ∀ id, ∃ s, rowRun applyImmutableBatches batch.seq origins
        ((previous.map (·.indexedId)).contains id) id
        (batch.writes.zipIdx.filter fun w => included w.1 w.2)
        (foundRow previous view id, false) = .ok s ∧
      ∀ r, r ∈ states.rows ∧ r.id = id ↔ s.2 = true ∧ s.1 = some r := by
  have hid : ∀ id r, view id = some r → r.id = id := fun id r hr => (hrow id r hr).id
  unfold prepareCurrentStates at h
  cases hrows : previousRows previous with
  | error e =>
    rw [hrows] at h
    cases h
  | ok rows =>
    rw [hrows] at h
    dsimp only at h
    split at h
    · cases h
    · rename_i p hp
      cases h
      have hat : ∀ j, Preparing.at { rows } j = (foundRow previous view j, false) := fun j =>
        Prod.ext (previousRows_get hid hview hrows j) rfl
      have hrun := fun j => prepareWrites_row hp j
      have hrid : ∀ j r, p.rows j = some r → r.id = j := fun j r hr => by
        have hj := hrun j
        rw [hat] at hj
        exact (((RowFrom.start fun q hq => foundRow_rowOf hrow j q hq).run hj).rowOf r hr).id
      have hchanged := prepareWrites_nodup (p := { rows }) List.nodup_nil hp
      refine ⟨nodup_rows hchanged hrid, fun id => ⟨p.at id, hat id ▸ hrun id, fun r => ?_⟩⟩
      simp only [Preparing.at, List.mem_filterMap]
      constructor
      · rintro ⟨⟨j, hj, hr⟩, rfl⟩
        rw [hrid j r hr]
        exact ⟨by simpa using hj, hr⟩
      · rintro ⟨hj, hr⟩
        exact ⟨⟨id, by simpa using hj, hr⟩, hrid id r hr⟩

theorem prepareCurrentStates_omitted {batch : DurableBatch Op} {previous : List CurrentStateSource}
    {included : StorageWrite Op → Nat → Bool} {states : CurrentStates}
    (h : prepareCurrentStates applyImmutableBatches batch origins previous included = .ok states)
    {record : DocumentRecord} {content : DocumentContent Op} {ordinal : Nat}
    (hw : (.documentCreate record content, ordinal) ∈ batch.writes.zipIdx)
    (ho : ordinal ∈ states.omitted) : isCurrentStateDocument record = true := by
  unfold prepareCurrentStates at h
  split at h
  · cases h
  · split at h
    · cases h
    · rename_i p hp
      cases h
      obtain hnone | ⟨w, hmem, hwo, hcurrent⟩ := prepareWrites_omitted hp ho
      · cases hnone
      · refine hcurrent record content ?_
        have hget := List.mem_zipIdx_iff_getElem?.mp (List.mem_filter.mp hmem).1
        have hget' := List.mem_zipIdx_iff_getElem?.mp hw
        rw [hwo] at hget
        exact Option.some.inj (hget.symm.trans hget')

theorem prepareCurrentStates_ok {batch : DurableBatch Op} {previous : List CurrentStateSource}
    {included : StorageWrite Op → Nat → Bool} {view : Nat → Option CurrentStateRow}
    (hrow : ∀ id r, view id = some r → RowOf id r)
    (hview : ∀ source ∈ previous, source.row = view source.indexedId)
    (hreq : ∀ source ∈ previous, source.row = none → source.indexed.requiresRow = false)
    (h : ∀ id, ∃ s, rowRun applyImmutableBatches batch.seq origins
      ((previous.map (·.indexedId)).contains id) id
      (batch.writes.zipIdx.filter fun w => included w.1 w.2)
      (foundRow previous view id, false) = .ok s) :
    ∃ states, prepareCurrentStates applyImmutableBatches batch origins previous included
      = .ok states := by
  obtain ⟨rows, hrows⟩ := previousRows_ok hreq
  have hat : ∀ j, Preparing.at { rows } j = (foundRow previous view j, false) := fun j =>
    Prod.ext (previousRows_get (fun id r hr => (hrow id r hr).id) hview hrows j) rfl
  have hfold : ∃ p, (batch.writes.zipIdx.filter fun w => included w.1 w.2).foldlM
      (prepareWrite applyImmutableBatches batch.seq origins (previous.map (·.indexedId)))
      { rows } = .ok p := by
    refine prepareWrites_of_rowRun fun id => ?_
    rw [hat]
    exact h id
  obtain ⟨p, hp⟩ := hfold
  unfold prepareCurrentStates
  rw [hrows]
  dsimp only
  rw [hp]
  exact ⟨_, rfl⟩

end Fold

end Durable
end PiCloud
