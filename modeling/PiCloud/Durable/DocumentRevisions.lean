import Mathlib.Data.List.Induction
import PiCloud.Durable.CurrentState

/-!
# Durable.DocumentRevisions

A document from its revisions (`materializeNativeDocument`), next to the row that folds the same
writes.

* `storeWrite`: the revision that a write adds, as `#indexBatch` counts and checkpoints them.
* `Agrees`: a row and the revisions of its document say the same.
* `Agrees.run`: a batch keeps that, whatever its writes to the document.
-/

namespace PiCloud
namespace Durable

open Lib

structure DocumentRevision (Op : Type) where
  seq : Nat
  ordinal : Nat
  content : DocumentContent Op
  deltaCount : Nat
  checkpoint : Option Members := none

/-- A document as readers see it. -/
structure StoredDocument where
  record : DocumentRecord
  version : Nat
  value : Members
  deltasSinceBase : Nat

def DocumentContent.baseValue {Op : Type} : DocumentContent Op → Option Members
  | .base _ value => some value
  | .delta .. => none

namespace DocumentRevision

variable {Op : Type}

def isBase (r : DocumentRevision Op) : Bool :=
  r.content.baseValue.isSome || r.checkpoint.isSome

/-- The operations of a revision behind a base of this version. -/
def ops (record : DocumentRecord) (version : Nat) (r : DocumentRevision Op) :
    Except String (List Op) :=
  match r.content with
  | .delta version' ops =>
    if version' = version then .ok ops
    else .error ("Document " ++ toString record.id
      ++ " crosses a stored version boundary without a base")
  | .base .. =>
    .error ("Document " ++ toString record.id
      ++ " crosses a stored version boundary without a base")

def lastBase (revisions : List (DocumentRevision Op)) : Option Nat :=
  revisions.zipIdx.foldl (fun base r => if r.1.isBase then some r.2 else base) none

theorem lastBase_append (revisions : List (DocumentRevision Op)) (r : DocumentRevision Op) :
    lastBase (revisions ++ [r]) = if r.isBase then some revisions.length else lastBase revisions := by
  unfold lastBase
  rw [List.zipIdx_append, List.foldl_append]
  simp

theorem lastBase_lt {revisions : List (DocumentRevision Op)} {i : Nat}
    (h : lastBase revisions = some i) : i < revisions.length := by
  induction revisions using List.reverseRecOn with
  | nil => cases h
  | append_singleton revisions r ih =>
    rw [lastBase_append] at h
    rw [List.length_append, List.length_singleton]
    split at h
    · cases h
      omega
    · have := ih h
      omega

end DocumentRevision

open DocumentRevision

section Materialize

variable {Op : Type} (applyImmutableBatches : Members → List (List Op) → Except String Members)

def materializeNativeDocument (record : DocumentRecord) (revisions : List (DocumentRevision Op)) :
    Except String StoredDocument := do
  match (lastBase revisions).bind (fun base => (revisions[base]?).map fun first => (base, first)) with
  | none => .error ("Document " ++ toString record.id ++ " is missing a required base")
  | some (base, first) =>
    match first.checkpoint.or first.content.baseValue with
    | none => .error "Native checkpoint base is missing"
    | some value =>
      let deltas ← (revisions.drop (base + 1)).mapM (ops record first.content.version)
      let value ← applyImmutableBatches value deltas
      return { record, version := first.content.version, value
               deltasSinceBase := first.deltaCount + deltas.length }

/-- What is assumed of `applyImmutableBatches`: it composes over concatenated batches. -/
structure Composes : Prop where
  nil : ∀ value, applyImmutableBatches value [] = .ok value
  append : ∀ value a b, applyImmutableBatches value (a ++ b)
    = applyImmutableBatches value a >>= fun value' => applyImmutableBatches value' b

variable {applyImmutableBatches}

theorem materialize_base (hc : Composes applyImmutableBatches) (record : DocumentRecord)
    (revisions : List (DocumentRevision Op)) {r : DocumentRevision Op} {value : Members}
    (hr : r.checkpoint.or r.content.baseValue = some value) :
    materializeNativeDocument applyImmutableBatches record (revisions ++ [r])
      = .ok { record, version := r.content.version, value, deltasSinceBase := r.deltaCount } := by
  have hbase : r.isBase = true := by
    unfold isBase
    cases hk : r.checkpoint with
    | some => simp
    | none =>
      rw [hk, Option.none_or] at hr
      simp [hr]
  unfold materializeNativeDocument
  rw [lastBase_append, if_pos hbase]
  simp only [Option.bind_some, List.getElem?_concat_length, Option.map_some, hr]
  rw [List.drop_of_length_le (by simp)]
  simp [hc.nil, pure, Except.pure, bind, Except.bind]

theorem materialize_delta (hc : Composes applyImmutableBatches) {record : DocumentRecord}
    {revisions : List (DocumentRevision Op)} {document : StoredDocument}
    (h : materializeNativeDocument applyImmutableBatches record revisions = .ok document)
    {r : DocumentRevision Op} {list : List Op}
    (hr : r.content = .delta document.version list) (hk : r.checkpoint = none) {value : Members}
    (hv : applyImmutableBatches document.value [list] = .ok value) :
    materializeNativeDocument applyImmutableBatches record (revisions ++ [r])
      = .ok { document with value, deltasSinceBase := document.deltasSinceBase + 1 } := by
  have hbase : r.isBase = false := by simp [isBase, hr, hk, DocumentContent.baseValue]
  unfold materializeNativeDocument at h ⊢
  rw [lastBase_append, if_neg (by simp [hbase])]
  cases hl : lastBase revisions with
  | none =>
    rw [hl] at h
    cases h
  | some base =>
    have hlt := lastBase_lt hl
    rw [hl] at h
    simp only [Option.bind_some] at h ⊢
    rw [List.getElem?_append_left hlt]
    obtain ⟨first, hfirst⟩ : ∃ first, revisions[base]? = some first :=
      ⟨_, List.getElem?_eq_getElem hlt⟩
    rw [hfirst] at h ⊢
    simp only [Option.map_some] at h ⊢
    cases hw : first.checkpoint.or first.content.baseValue with
    | none =>
      rw [hw] at h
      cases h
    | some start =>
      rw [hw] at h
      dsimp only at h ⊢
      obtain ⟨deltas, hd, h⟩ := bind_eq_ok.mp h
      obtain ⟨value', hvalue', h⟩ := bind_eq_ok.mp h
      cases h
      have hops : r.ops record first.content.version = .ok list := by simp [ops, hr]
      rw [List.drop_append_of_le_length (by omega), List.mapM_append, hd]
      simp only [ok_bind, List.mapM_cons, List.mapM_nil, hops, pure_bind]
      show applyImmutableBatches start (deltas ++ [list]) >>= _ = _
      rw [hc.append, hvalue', ok_bind, hv, ok_bind, List.length_append, List.length_singleton]
      rfl

end Materialize

/-! ## The revisions of a document -/

/-- How revisions are kept: which delta counts get a checkpoint, and whether a whole value drops
the revisions before it. -/
structure Retention where
  checkpoints : Nat → Bool
  dropsSuperseded : Bool

/-- `#indexBatch`, for a document of which only the current state is kept. -/
def indexedRetention : Retention where
  checkpoints n := n ≠ 0 && n % 64 = 0
  dropsSuperseded := true

def fullRetention : Retention where
  checkpoints _ := false
  dropsSuperseded := false

structure StoredRevisions (Op : Type) where
  record : DocumentRecord
  retired : Bool := false
  revisions : List (DocumentRevision Op)

section Store

variable {Op : Type} (applyImmutableBatches : Members → List (List Op) → Except String Members)
  (retention : Retention)

def storeDelta (seq ordinal : Nat) (stored : StoredRevisions Op) (version : Nat) (list : List Op) :
    Except String (StoredRevisions Op) :=
  match stored.revisions.getLast? with
  | none => .error "Native document or matching base is missing"
  | some previous =>
    if previous.content.version ≠ version then
      .error "Native document or matching base is missing"
    else
      let revision : DocumentRevision Op :=
        { seq, ordinal, content := .delta version list, deltaCount := previous.deltaCount + 1 }
      if retention.checkpoints revision.deltaCount then do
        let before ← materializeNativeDocument applyImmutableBatches stored.record stored.revisions
        let value ← applyImmutableBatches before.value [list]
        return { stored with
          revisions := stored.revisions ++ [{ revision with checkpoint := some value }] }
      else .ok { stored with revisions := stored.revisions ++ [revision] }

/-- What a write does to the stored revisions of its current-state document. -/
def storeWrite (seq ordinal : Nat) (stored : Option (StoredRevisions Op))
    (write : StorageWrite Op) : Except String (Option (StoredRevisions Op)) :=
  match write, stored with
  | .documentCreate record content, none =>
    if isCurrentStateDocument record then
      match content with
      | .base .. => .ok (some { record, revisions := [{ seq, ordinal, content, deltaCount := 0 }] })
      | .delta .. => .error "Native document or matching base is missing"
    else .ok none
  | .documentCreate record _, some stored =>
    if isCurrentStateDocument record then .error "Native record ID ownership changed"
    else .ok (some stored)
  | .documentChange _ (.base version value), some stored =>
    let kept := if retention.dropsSuperseded then [] else stored.revisions
    .ok (some { stored with
      revisions := kept ++ [{ seq, ordinal, content := .base version value, deltaCount := 0 }] })
  | .documentChange _ (.delta version list), some stored => do
    return some (← storeDelta applyImmutableBatches retention seq ordinal stored version list)
  | .documentRetire _, some stored => .ok (some { stored with retired := true, revisions := [] })
  | _, stored => .ok stored

def storeStep (seq id : Nat) (stored : Option (StoredRevisions Op))
    (write : StorageWrite Op × Nat) : Except String (Option (StoredRevisions Op)) :=
  if write.1.id = id then storeWrite applyImmutableBatches retention seq write.2 stored write.1
  else .ok stored

def storeBatch (id : Nat) (stored : Option (StoredRevisions Op)) (batch : DurableBatch Op) :
    Except String (Option (StoredRevisions Op)) :=
  batch.writes.zipIdx.foldlM (storeStep applyImmutableBatches retention batch.seq id) stored

def storedRevisions (id : Nat) (batches : List (DurableBatch Op)) :
    Except String (Option (StoredRevisions Op)) :=
  batches.foldlM (storeBatch applyImmutableBatches retention id) none

/-- The document that the reader makes of its stored revisions; a retired one cannot be read. -/
def readDocument (id : Nat) (batches : List (DurableBatch Op)) :
    Except String (Option StoredDocument) := do
  match ← storedRevisions applyImmutableBatches retention id batches with
  | none => return none
  | some stored =>
    if stored.retired then return none
    else return some (← materializeNativeDocument applyImmutableBatches stored.record
      stored.revisions)

/-! ## The row and the revisions -/

/-- The document that a row holds: version, value and delta count. -/
def currentDocument (row : Option CurrentStateRow) : Option StoredDocument :=
  match row with
  | some { body := .document record version value, retiredSeq := none, deltaCount, .. } =>
    some { record, version, value, deltasSinceBase := deltaCount }
  | _ => none

theorem currentDocument_some {row : CurrentStateRow} {document : StoredDocument} :
    currentDocument (some row) = some document ↔
      row.body = .document document.record document.version document.value ∧
        row.retiredSeq = none ∧ row.deltaCount = document.deltasSinceBase := by
  obtain ⟨seq, ordinal, body, deltaCount, createdSeq, retiredSeq, cloudOrigin⟩ := row
  obtain ⟨record, version, value, count⟩ := document
  cases body <;> cases retiredSeq <;> simp [currentDocument, and_assoc]

inductive Agrees : Option CurrentStateRow → Option (StoredRevisions Op) → Prop where
  | absent : Agrees none none
  | submission {row : CurrentStateRow} (hk : row.kind = .value .submission) : Agrees (some row) none
  | current {row : CurrentStateRow} {stored : StoredRevisions Op} {document : StoredDocument}
      {last : DocumentRevision Op}
      (hk : row.kind = .document) (hrow : currentDocument (some row) = some document)
      (hret : stored.retired = false) (hrec : stored.record = document.record)
      (hmat : materializeNativeDocument applyImmutableBatches stored.record stored.revisions
        = .ok document)
      (hlast : stored.revisions.getLast? = some last)
      (hcount : last.deltaCount = document.deltasSinceBase)
      (hversion : last.content.version = document.version) : Agrees (some row) (some stored)
  | retired {row : CurrentStateRow} {stored : StoredRevisions Op} (hk : row.kind = .document)
      (hrow : row.retiredSeq.isSome) (hret : stored.retired = true) : Agrees (some row) (some stored)

variable {applyImmutableBatches} {retention}

theorem storeDelta_ok (hc : Composes applyImmutableBatches) {stored : StoredRevisions Op}
    {document : StoredDocument} {last : DocumentRevision Op}
    (hmat : materializeNativeDocument applyImmutableBatches stored.record stored.revisions
      = .ok document)
    (hlast : stored.revisions.getLast? = some last)
    (hcount : last.deltaCount = document.deltasSinceBase)
    (hversion : last.content.version = document.version) {list : List Op} {value : Members}
    (hvalue : applyImmutableBatches document.value [list] = .ok value) (seq ordinal : Nat) :
    ∃ r, storeDelta applyImmutableBatches retention seq ordinal stored document.version list
        = .ok { stored with revisions := stored.revisions ++ [r] } ∧
      r.deltaCount = document.deltasSinceBase + 1 ∧ r.content.version = document.version ∧
      materializeNativeDocument applyImmutableBatches stored.record (stored.revisions ++ [r])
        = .ok { document with value, deltasSinceBase := document.deltasSinceBase + 1 } := by
  have hrec : document.record = stored.record := by
    unfold materializeNativeDocument at hmat
    split at hmat
    · cases hmat
    · split at hmat
      · cases hmat
      · obtain ⟨deltas, _, hmat⟩ := bind_eq_ok.mp hmat
        obtain ⟨value', _, hmat⟩ := bind_eq_ok.mp hmat
        cases hmat
        rfl
  unfold storeDelta
  rw [hlast]
  dsimp only
  rw [if_neg (by simpa using hversion)]
  split
  · refine ⟨_, by rw [hmat, ok_bind, hvalue]; rfl, by rw [hcount], rfl, ?_⟩
    rw [materialize_base hc stored.record stored.revisions (by rfl)]
    simp [hcount, hrec, DocumentContent.version]
  · exact ⟨_, rfl, by rw [hcount], rfl, materialize_delta hc hmat rfl rfl hvalue⟩

theorem Agrees.change (hc : Composes applyImmutableBatches) {seq ordinal id : Nat}
    {origins : Nat → Option Origin} {taken : Bool} {row : CurrentStateRow}
    {x : Option CurrentStateRow} {stored : StoredRevisions Op} {document : StoredDocument}
    {last : DocumentRevision Op} (hrow : currentDocument (some row) = some document)
    (hret : stored.retired = false) (hrec : stored.record = document.record)
    (hmat : materializeNativeDocument applyImmutableBatches stored.record stored.revisions
      = .ok document)
    (hlast : stored.revisions.getLast? = some last)
    (hcount : last.deltaCount = document.deltasSinceBase)
    (hversion : last.content.version = document.version) (content : DocumentContent Op)
    (hx : writeRow applyImmutableBatches seq ordinal origins taken (.documentChange id content)
      (some row) = .ok x) :
    ∃ stored', storeWrite applyImmutableBatches retention seq ordinal (some stored)
        (.documentChange id content) = .ok stored' ∧
      Agrees applyImmutableBatches (x.or (some row)) stored' := by
  obtain ⟨hbody, hrs, hdc⟩ := currentDocument_some.mp hrow
  unfold writeRow at hx
  dsimp only at hx
  rw [hbody, hrs] at hx
  cases content with
  | base version value =>
    cases hx
    refine ⟨_, rfl, .current rfl rfl hret hrec ?_ List.getLast?_concat rfl rfl⟩
    rw [← hrec]
    exact materialize_base hc _ _ rfl
  | delta version list =>
    dsimp only at hx
    by_cases hv : version = document.version
    · rw [if_neg (not_not_intro hv)] at hx
      subst hv
      cases hvalue : applyImmutableBatches document.value [list] with
      | error e =>
        rw [hvalue] at hx
        cases hx
      | ok value =>
        rw [hvalue] at hx
        cases hx
        obtain ⟨r, hst, hrc, hrv, hm⟩ :=
          storeDelta_ok hc hmat hlast hcount hversion hvalue seq ordinal
        refine ⟨some { stored with revisions := stored.revisions ++ [r] }, ?_,
          .current rfl ?_ hret ?_ hm List.getLast?_concat hrc hrv⟩
        · rw [storeWrite, hst]
          rfl
        · rw [currentDocument_some]
          exact ⟨rfl, rfl, by rw [← hdc]⟩
        · exact hrec
    · rw [if_pos hv] at hx
      cases hx

theorem Agrees.write (hc : Composes applyImmutableBatches) {seq ordinal : Nat}
    {origins : Nat → Option Origin} {taken : Bool} {row x : Option CurrentStateRow}
    {stored : Option (StoredRevisions Op)} {write : StorageWrite Op}
    (hs : Agrees applyImmutableBatches row stored) (htaken : row.isSome → taken = true)
    (hclean : write.isSubmission = true → ∀ q, row = some q → q.kind = .value .submission)
    (hx : writeRow applyImmutableBatches seq ordinal origins taken write row = .ok x) :
    ∃ stored', storeWrite applyImmutableBatches retention seq ordinal stored write = .ok stored' ∧
      Agrees applyImmutableBatches (x.or row) stored' := by
  cases write with
  | value kind id value =>
    cases kind with
    | submission =>
      cases hx
      refine ⟨stored, rfl, ?_⟩
      cases hs with
      | absent => exact .submission rfl
      | submission => exact .submission rfl
      | current hk => cases hk.symm.trans (hclean rfl _ rfl)
      | retired hk => cases hk.symm.trans (hclean rfl _ rfl)
    | conversation =>
      cases hx
      exact ⟨stored, rfl, hs⟩
    | entry =>
      cases hx
      exact ⟨stored, rfl, hs⟩
    | task =>
      cases hx
      exact ⟨stored, rfl, hs⟩
  | documentCreate record content =>
    unfold writeRow at hx
    dsimp only at hx
    by_cases hcur : isCurrentStateDocument record = true
    · rw [if_pos hcur] at hx
      cases row with
      | some row =>
        rw [htaken rfl] at hx
        cases hx
      | none =>
        split at hx
        · cases hx
        · cases hs
          cases content with
          | delta => cases hx
          | base version value =>
            cases hx
            exact ⟨_, if_pos hcur,
              .current rfl rfl rfl rfl (materialize_base hc record [] rfl) rfl rfl rfl⟩
    · rw [if_neg hcur] at hx
      cases hx
      cases stored with
      | none => exact ⟨none, if_neg hcur, hs⟩
      | some stored => exact ⟨some stored, if_neg hcur, hs⟩
  | documentChange id content =>
    cases hs with
    | absent =>
      cases hx
      cases content <;> exact ⟨none, rfl, .absent⟩
    | submission hk =>
      rw [writeRow_edit_unavailable rfl (.inl hk)] at hx
      cases hx
    | retired _ hret =>
      rw [writeRow_edit_unavailable rfl (.inr hret)] at hx
      cases hx
    | current _ hrow hret hrec hmat hlast hcount hversion =>
      exact Agrees.change hc hrow hret hrec hmat hlast hcount hversion content hx
  | documentRetire id =>
    cases hs with
    | absent =>
      cases hx
      exact ⟨none, rfl, .absent⟩
    | submission hk =>
      rw [writeRow_edit_unavailable rfl (.inl hk)] at hx
      cases hx
    | retired _ hret =>
      rw [writeRow_edit_unavailable rfl (.inr hret)] at hx
      cases hx
    | current _ hrow =>
      obtain ⟨hbody, hrs, _⟩ := currentDocument_some.mp hrow
      unfold writeRow at hx
      dsimp only at hx
      rw [hbody, hrs] at hx
      cases hx
      exact ⟨_, rfl, .retired rfl rfl rfl⟩
  | documentCopy record =>
    cases hx
    exact ⟨stored, rfl, hs⟩

/-- The writes of a batch to `id` claim it for one kind of record. -/
structure Claimed (id : Nat) (writes : List (StorageWrite Op × Nat)) (row : Option CurrentStateRow) :
    Prop where
  /-- a document that is there, or that a write creates, sees no submission -/
  found : (∃ q, row = some q ∧ q.kind = .document) →
    ∀ w ∈ writes, w.1.id = id → w.1.isSubmission = false
  created : (∃ w ∈ writes, w.1.createdId = some id) →
    ∀ w ∈ writes, w.1.id = id → w.1.isSubmission = false

theorem writeRow_document {write : StorageWrite Op} {seq ordinal : Nat}
    {origins : Nat → Option Origin} {taken : Bool} {row : Option CurrentStateRow}
    {r : CurrentStateRow} (hr : r.kind = .document)
    (hx : writeRow applyImmutableBatches seq ordinal origins taken write row = .ok (some r)) :
    (∃ q, row = some q ∧ q.kind = .document) ∨ write.createdId = some write.id := by
  cases write with
  | value kind id value =>
    cases kind <;> cases hx
    cases hr
  | documentCreate record content => exact .inr rfl
  | documentChange id content =>
    cases row with
    | none => cases hx
    | some q =>
      cases hq : q.body with
      | submission =>
        rw [writeRow_edit_unavailable rfl (.inl (by simp [CurrentStateRow.kind, hq,
          CurrentBody.kind]))] at hx
        cases hx
      | document => exact .inl ⟨q, rfl, by simp [CurrentStateRow.kind, hq, CurrentBody.kind]⟩
  | documentRetire id =>
    cases row with
    | none => cases hx
    | some q =>
      cases hq : q.body with
      | submission =>
        rw [writeRow_edit_unavailable rfl (.inl (by simp [CurrentStateRow.kind, hq,
          CurrentBody.kind]))] at hx
        cases hx
      | document => exact .inl ⟨q, rfl, by simp [CurrentStateRow.kind, hq, CurrentBody.kind]⟩
  | documentCopy => cases hx

theorem Agrees.run (hc : Composes applyImmutableBatches) {seq id : Nat}
    {origins : Nat → Option Origin} {known : Bool} {writes : List (StorageWrite Op × Nat)}
    {s s' : Option CurrentStateRow × Bool} {stored : Option (StoredRevisions Op)}
    (hs : Agrees applyImmutableBatches s.1 stored) (htaken : s.1.isSome → (known || s.2) = true)
    (hclaimed : Claimed id writes s.1)
    (h : rowRun applyImmutableBatches seq origins known id writes s = .ok s') :
    ∃ stored', writes.foldlM (storeStep applyImmutableBatches retention seq id) stored
        = .ok stored' ∧ Agrees applyImmutableBatches s'.1 stored' := by
  unfold rowRun at h
  induction writes generalizing s stored with
  | nil =>
    cases h
    exact ⟨stored, rfl, hs⟩
  | cons write writes ih =>
    rw [List.foldlM_cons] at h ⊢
    obtain ⟨t, ht, hrest⟩ := bind_eq_ok.mp h
    have htail : ∀ w ∈ writes, w ∈ write :: writes := fun w => List.mem_cons_of_mem write
    unfold storeStep
    by_cases hid : write.1.id = id
    · rw [if_pos hid]
      obtain ⟨x, hx, rfl⟩ := rowStep_at hid ht
      have hclean : write.1.isSubmission = true → ∀ q, s.1 = some q → q.kind = .value .submission := by
        intro hsub q hq
        cases hb : q.body with
        | submission => simp [CurrentStateRow.kind, hb, CurrentBody.kind]
        | document =>
          have hdoc : q.kind = .document := by simp [CurrentStateRow.kind, hb, CurrentBody.kind]
          rw [hclaimed.found ⟨q, hq, hdoc⟩ write List.mem_cons_self hid] at hsub
          cases hsub
      obtain ⟨stored', hst, hagrees⟩ := hs.write hc htaken hclean hx
      rw [hst, ok_bind]
      refine ih hagrees ?_ ⟨?_, ?_⟩ hrest
      · cases x with
        | none => exact htaken
        | some r => simp
      · rintro ⟨q, hq, hk⟩ w hw hwid
        cases x with
        | none => exact hclaimed.found ⟨q, hq, hk⟩ w (htail w hw) hwid
        | some r =>
          cases hq
          obtain hfound | hcreated := writeRow_document hk hx
          · exact hclaimed.found hfound w (htail w hw) hwid
          · exact hclaimed.created ⟨write, List.mem_cons_self, hid ▸ hcreated⟩ w (htail w hw) hwid
      · rintro ⟨c, hcm, hcid⟩ w hw hwid
        exact hclaimed.created ⟨c, htail c hcm, hcid⟩ w (htail w hw) hwid
    · unfold rowStep at ht
      rw [if_neg hid] at ht ⊢
      cases ht
      exact ih hs htaken ⟨fun hq w hw => hclaimed.found hq w (htail w hw),
        fun ⟨c, hcm, hcid⟩ w hw => hclaimed.created ⟨c, htail c hcm, hcid⟩ w (htail w hw)⟩ hrest

end Store

end Durable
end PiCloud
