import PiCloud.Durable.OverlayCommit

/-!
# Durable.OverlayReads

What the reads of an overlay storage do to it, and the preparation of a batch, which is made of reads:
they fill the two caches, and nothing else.

* `Got`, `Scanned`: what `get` and `scan` answer, and how they leave the storage.
* `CacheClosed`: what the filling of a cache keeps.
* `keeps_answer`, `keeps_prepare`: that is kept by every read, and by the preparation.
-/

namespace PiCloud
namespace Durable
namespace Overlay

open Lib
open Published (DocumentPoint)

section Steps

variable {Op : Type} {o : Options Op} {w : World Op} {t : Working Op}

theorem ends_store_bind {α : Type} {f : Store Op → Work Op α} {Q : α → Working Op → Prop}
    {E : String → Working Op → Prop} (h : Ends (f t.store) t Q E) : Ends (store >>= f) t Q E :=
  Ends.bind (Q := fun s s' => s = t.store ∧ t = s') ⟨rfl, rfl⟩ (by
    rintro _ _ ⟨rfl, rfl⟩
    exact h)

theorem ends_change {f : Store Op → Store Op} {Q : Unit → Working Op → Prop}
    {E : String → Working Op → Prop} (h : Q () { t with store := f t.store }) :
    Ends (change f) t Q E := h

theorem ends_ask {Q : Database Op → Working Op → Prop} {E : String → Working Op → Prop}
    (hok : ∀ db, w t.queries = some db → Q db { t with queries := t.queries + 1 })
    (herror : w t.queries = none → ∀ e, E e { t with queries := t.queries + 1 }) :
    Ends (ask w) t Q E := by
  unfold ask
  refine Ends.bind (Ends.get (Q := fun s s' => t = s ∧ t = s') ⟨rfl, rfl⟩) ?_
  rintro _ _ ⟨rfl, rfl⟩
  refine Ends.bind (Ends.set (Q := fun _ s' => s' = { t with queries := t.queries + 1 }) rfl) ?_
  rintro ⟨⟩ _ rfl
  cases hdb : w t.queries with
  | none => exact .throw (herror hdb _)
  | some db => exact .pure (hok db hdb)

theorem ends_lift {α : Type} {x : Except String α} {Q : α → Working Op → Prop}
    {E : String → Working Op → Prop} (hok : ∀ a, x = .ok a → Q a t) (herror : ∀ e, E e t) :
    Ends (lift x) t Q E := by
  cases x with
  | ok a => exact .pure (hok a rfl)
  | error e => exact .throw (herror e)

/-- What `get` finds, and how it leaves the storage. -/
inductive Got (w : World Op) (s : Store Op) (id : Nat) : Option IndexedRecord → Store Op → Prop where
  | overlay {r : IndexedRecord} (h : s.records.get id = some r) : Got w s id (some r) s
  | absent (h : s.records.get id = none) (hcold : s.coldSeq = 0 ∨ s.coldNextId ≤ id) : Got w s id none s
  | cached {found : Option IndexedRecord} (h : s.records.get id = none)
      (hcache : s.readCache.get id = some found) : Got w s id found s
  | asked {q : Nat} {db : Database Op} (h : s.records.get id = none) (hcold : s.coldSeq ≠ 0)
      (hid : id < s.coldNextId) (hdb : w q = some db) : Got w s id (db.rows.get id) s
  | kept {q : Nat} {db : Database Op} (h : s.records.get id = none) (hcold : s.coldSeq ≠ 0)
      (hid : id < s.coldNextId) (hdb : w q = some db) :
      Got w s id (db.rows.get id) (s.cacheRecord id (db.rows.get id))

theorem get_got (id : Nat) :
    Ends (get o w id) t (fun r t' => Got w t.store id r t'.store) fun _ t' => t'.store = t.store := by
  unfold get
  refine ends_store_bind ?_
  cases hlocal : t.store.records.get id with
  | some r => exact .pure (.overlay hlocal)
  | none =>
    dsimp only
    split
    · rename_i hcold
      rw [Bool.or_eq_true, decide_eq_true_eq, decide_eq_true_eq] at hcold
      exact .pure (.absent hlocal hcold)
    · rename_i hcold
      rw [Bool.or_eq_true, decide_eq_true_eq, decide_eq_true_eq, not_or] at hcold
      obtain ⟨hseq, hid⟩ := hcold
      cases hcache : t.store.readCache.get id with
      | some found => exact .pure (.cached hlocal hcache)
      | none =>
        refine Ends.bind (Q := fun db s' => w t.queries = some db ∧ s' = { t with queries := t.queries + 1 })
          (ends_ask (fun db hdb => ⟨hdb, rfl⟩) fun _ _ => rfl) ?_
        rintro db _ ⟨hdb, rfl⟩
        split
        · refine Ends.bind (Q := fun _ s' => s'.store = t.store.cacheRecord id (db.rows.get id))
            (ends_change rfl) ?_
          rintro ⟨⟩ s' hs'
          refine .pure ?_
          rw [hs']
          exact .kept hlocal hseq (Nat.lt_of_not_le hid) hdb
        · exact .pure (.asked hlocal hseq (Nat.lt_of_not_le hid) hdb)

def Store.merge (s : Store Op) (query : Query) (limit : Nat) (cold : List IndexedRecord) :
    List IndexedRecord :=
  (inOrder query.descending (cold ++ s.overlay.filter (matchesRecord · query))).take limit

/-- The rows of a scan. -/
inductive Scanned (w : World Op) (s : Store Op) (query : Query) (limit : Nat) :
    List IndexedRecord → Prop where
  | overlay (h : s.coldSeq = 0 ∨ query.minId.any (s.coldNextId ≤ ·) = true) :
      Scanned w s query limit (s.merge query limit [])
  | merged {q : Nat} {db : Database Op} (hcold : s.coldSeq ≠ 0) (hdb : w q = some db) :
      Scanned w s query limit (s.merge query limit (db.scan query limit s.overlayIds))

theorem scan_scanned (query : Query) (limit : Nat) :
    Ends (scan w query limit) t (fun rows t' => Scanned w t.store query limit rows ∧ t'.store = t.store)
      fun _ t' => t'.store = t.store := by
  unfold scan
  split
  · exact .throw rfl
  · refine ends_store_bind ?_
    dsimp only
    split
    · rename_i hcold
      rw [Bool.or_eq_true, decide_eq_true_eq] at hcold
      exact .pure ⟨.overlay hcold, rfl⟩
    · rename_i hcold
      rw [Bool.or_eq_true, decide_eq_true_eq, not_or] at hcold
      rw [map_eq_pure_bind, bind_assoc]
      refine Ends.bind (Q := fun db s' => w t.queries = some db ∧ s'.store = t.store)
        (ends_ask (fun db hdb => ⟨hdb, rfl⟩) fun _ _ => rfl) ?_
      rintro db s' ⟨hdb, hs'⟩
      exact .pure ⟨.merged hcold.1 hdb, hs'⟩

end Steps

/-! ## What the caches keep -/

def currentQuery (a : Address) : Query :=
  { kind := .document, address := some a, point := some .current, descending := true }

structure CacheClosed {Op : Type} (w : World Op) (I : Store Op → Prop) : Prop where
  record : ∀ s q db id, I s → w q = some db → s.records.get id = none → s.coldSeq ≠ 0 →
    id < s.coldNextId → I (s.cacheRecord id (db.rows.get id))
  address : ∀ s a rows, I s → s.addresses.get a = none → s.currentAt a = none →
    Scanned w s (currentQuery a) 1 rows → I (s.cacheAddress a (rows.head?.bind IndexedRecord.document?))

section Keep

variable {Op : Type} {o : Options Op} {w : World Op} {I : Store Op → Prop}

/-- A program that leaves the storage in `I` keeps `I`, however it ends. -/
theorem keeps_of_ends {α : Type} {x : Work Op α}
    (h : ∀ t, I t.store → Ends x t (fun _ t' => I t'.store) fun _ t' => I t'.store) :
    Keeps x fun t => I t.store := by
  intro t ht
  have := h t ht
  unfold Ends at this
  rcases hr : x.run t with ⟨e | a, t'⟩
  · rw [hr] at this
    exact this
  · rw [hr] at this
    exact this

theorem keeps_store : Keeps (store : Work Op (Store Op)) fun t => I t.store :=
  fun _ h => h

theorem keeps_ask : Keeps (ask w) fun t => I t.store :=
  keeps_of_ends fun _ h => ends_ask (fun _ _ => h) fun _ _ => h

theorem keeps_lift {α : Type} (x : Except String α) : Keeps (lift x : Work Op α) fun t => I t.store :=
  keeps_of_ends fun _ h => ends_lift (fun _ _ => h) fun _ => h

theorem keeps_scan (query : Query) (limit : Nat) : Keeps (scan w query limit) fun t => I t.store :=
  keeps_of_ends fun t h => (scan_scanned query limit).imp
    (fun _ t' ht' => by rwa [ht'.2]) fun _ t' ht' => by rwa [ht']

theorem keeps_ancestry (id : Nat) : Keeps (ancestry w id) fun t => I t.store := by
  unfold ancestry
  refine keeps_store.bind fun s => ?_
  split
  · exact .pure _
  · exact .throw _
  · refine .ite (.throw _) (keeps_ask.bind fun db => ?_)
    dsimp only
    split
    · exact .pure _
    · exact .throw _
    · exact .throw _

theorem keeps_cursorId (cursor : Option Nat) :
    Keeps (cursorId cursor : Work Op (Option Nat)) fun t => I t.store :=
  .ite (.pure _) (.throw _)

theorem keeps_entries (query : Published.EntryQuery) (limit : Nat) (cursor : Option Nat)
    (head : Bool) : Keeps (entries w query limit cursor head) fun t => I t.store := by
  unfold entries
  refine (keeps_cursorId cursor).bind fun after => (keeps_ancestry _).bind fun path => ?_
  refine keeps_store.bind fun s => ?_
  dsimp only
  split
  · exact .pure _
  · exact .bind (.map _ keeps_ask) fun _ => .pure _

theorem keeps_scanKind (kind : Published.RecordKind)
    (fields : List (Published.Field × Published.FieldValue)) (point : Option DocumentPoint)
    (limit : Nat) (cursor : Option Nat) :
    Keeps (scanKind w kind fields point limit cursor) fun t => I t.store :=
  (keeps_cursorId cursor).bind fun _ => (keeps_scan _ _).bind fun _ => .pure _

variable (hI : CacheClosed w I)
include hI

theorem keeps_get (id : Nat) : Keeps (get o w id) fun t => I t.store := by
  refine keeps_of_ends fun t h => (get_got id).imp (fun r t' ht' => ?_) fun _ t' ht' => by rwa [ht']
  generalize t'.store = s' at ht' ⊢
  cases ht' with
  | overlay | absent | cached | asked => exact h
  | kept hlocal hcold hid hdb => exact hI.record _ _ _ _ h hdb hlocal hcold hid

theorem keeps_value (kind : ValueKind) (id : Nat) : Keeps (value o w kind id) fun t => I t.store :=
  (keeps_get hI id).bind fun _ => .pure _

theorem keeps_conversation (id : Nat) : Keeps (conversation o w id) fun t => I t.store := by
  refine (keeps_value hI _ id).bind fun found => ?_
  cases found with
  | none => exact .throw _
  | some v => exact .pure _

theorem keeps_document (id : Nat) : Keeps (document o w id) fun t => I t.store :=
  (keeps_get hI id).bind fun _ => .pure _

omit hI in
theorem keeps_entryWithin (conversation : Option Value) (found : Option IndexedRecord) :
    Keeps (entryWithin w conversation found) fun t => I t.store := by
  unfold entryWithin
  split
  · refine .ite (.pure _) ?_
    cases conversation with
    | none => exact .pure _
    | some conversation =>
      refine .ite (.pure _) ((keeps_ancestry _).bind fun path => ?_)
      split <;> exact .pure _
  · exact .pure _

theorem keeps_entry (conversationId : Option Nat) (id : Nat) :
    Keeps (entry o w conversationId id) fun t => I t.store := by
  unfold entry
  cases conversationId with
  | none => exact (keeps_get hI id).bind fun _ => keeps_entryWithin _ _
  | some conversationId =>
    exact .bind (.map _ (keeps_conversation hI _)) fun _ =>
      (keeps_get hI id).bind fun _ => keeps_entryWithin _ _

theorem keeps_findDocument (a : Address) (point : DocumentPoint) :
    Keeps (findDocument w a point) fun t => I t.store := by
  unfold findDocument
  cases point with
  | «at» seq => exact (keeps_scan _ _).bind fun _ => .pure _
  | current =>
    refine keeps_of_ends fun t h => ?_
    dsimp only
    refine ends_store_bind ?_
    cases hcached : t.store.addresses.get a with
    | some found => exact .pure h
    | none =>
      cases hlocal : t.store.currentAt a with
      | some d => exact .pure h
      | none =>
        refine Ends.bind ((scan_scanned (currentQuery a) 1).imp (fun _ _ h => h) fun _ t' ht' => ?_) ?_
        · rw [ht']
          exact h
        · rintro rows t' ⟨hrows, ht'⟩
          refine Ends.bind (Q := fun _ s' => s'.store =
            t.store.cacheAddress a (rows.head?.bind IndexedRecord.document?)) (ends_change ?_) ?_
          · rw [ht']
          · rintro ⟨⟩ s' hs'
            refine .pure ?_
            rw [hs']
            exact hI.address _ _ _ h hcached hlocal hrows

omit hI in
theorem keeps_materialize (id : Nat) (record : Document) (point : DocumentPoint) :
    Keeps (materialize o w id record point) fun t => I t.store := by
  have hrest : ∀ cold local_, Keeps ((do
      let stored ← lift (materializeNativeDocument o.applyImmutableBatches record.toDocumentRecord
        (mergeRevisions cold local_))
      return { record, version := stored.version, value := stored.value
               deltasSinceBase := stored.deltasSinceBase } : Work Op StoredDocument)) fun t => I t.store :=
    fun cold local_ => (keeps_lift _).bind fun _ => .pure _
  unfold materialize
  refine keeps_store.bind fun s => ?_
  dsimp only
  exact .ite (hrest _ _) (keeps_ask.bind fun _ => (keeps_lift _).bind fun _ => hrest _ _)

theorem keeps_readDocument (id : Nat) (point : DocumentPoint) :
    Keeps (readDocument o w id point) fun t => I t.store := by
  refine (keeps_document hI id).bind fun found => ?_
  cases found with
  | none => exact .pure _
  | some record =>
    refine .ite (.throw _) (.ite (.pure _) (keeps_store.bind fun s => ?_))
    split
    · exact .pure _
    · exact .map _ (keeps_materialize id record point)

omit hI in
theorem keeps_scanPage (limit : Nat) (cursor : Option Nat) (scan : Published.Scan) :
    Keeps (scanPage w limit cursor scan) fun t => I t.store := by
  cases scan with
  | entries query => exact .bind (keeps_entries _ _ _ _) fun _ => .pure _
  | conversations | tasks | submissions | documents => exact keeps_scanKind _ _ _ _ _

omit hI in
theorem keeps_latestRevision (id : Nat) : Keeps (latestRevision w id) fun t => I t.store := by
  unfold latestRevision
  refine keeps_store.bind fun s => ?_
  split
  · exact .pure _
  · split
    · exact .pure _
    · exact .ite (.pure _) (keeps_ask.bind fun _ => keeps_lift _)

omit hI in
theorem keeps_recordSequence (id : Nat) : Keeps (recordSequence w id) fun t => I t.store := by
  unfold recordSequence
  refine keeps_store.bind fun s => ?_
  split
  · exact .pure _
  · refine .ite (.pure _) ?_
    split
    · exact .pure _
    · exact keeps_ask.bind fun _ => .pure _

theorem keeps_answer (read : Read) : Keeps (answer o w read) fun t => I t.store := by
  cases read with
  | value kind id => exact (keeps_value hI kind id).bind fun _ => .pure _
  | entry conversationId id => exact (keeps_entry hI conversationId id).bind fun _ => .pure _
  | scan scan limit cursor => exact (keeps_scanPage limit cursor scan).bind fun _ => .pure _
  | submissionByRequest => exact .bind ((keeps_scan _ _).bind fun _ => .pure _) fun _ => .pure _
  | findLatestHeadMarker => exact .bind (.bind (keeps_entries _ _ _ _) fun _ => .pure _) fun _ => .pure _
  | findDocument address point => exact (keeps_findDocument hI address point).bind fun _ => .pure _
  | document id point => exact (keeps_readDocument hI id point).bind fun _ => .pure _
  | recordSequence id => exact (keeps_recordSequence id).bind fun _ => .pure _

/-! ## The preparation -/

theorem keeps_resolveCopy (changed : List Nat) (write : StorageWrite Op) :
    Keeps (resolveCopy o w changed write) fun t => I t.store := by
  cases write with
  | documentCopy record source point =>
    refine .ite (.throw _) ((keeps_readDocument hI source point).bind fun found => ?_)
    cases found with
    | none => exact .throw _
    | some found => exact .ite (.pure _) (.throw _)
  | value | documentCreate | documentChange | documentRetire => exact .pure _

theorem keeps_claimWrite (c : Claims Op) (write : StorageWrite Op) :
    Keeps (claimWrite o w c write) fun t => I t.store := by
  refine .bind ?_ fun c => keeps_lift _
  unfold claim
  cases write.claim with
  | none => exact .pure _
  | some claim =>
    exact (keeps_get hI claim.1).bind fun _ => .ite (.throw _) (.ite (.throw _) (.pure _))

theorem keeps_countCurrent (claimed : InsertionMap Nat DurableRecordKind) (a : Address) :
    Keeps (countCurrent w claimed a) fun t => I t.store :=
  keeps_store.bind fun _ => .ite (.pure _) ((keeps_findDocument hI a .current).bind fun _ => .pure _)

theorem keeps_countAction (claimed : InsertionMap Nat DurableRecordKind) (p : Changes Op)
    (existing : Bool) (action : DocumentAction Op) (record : Document) :
    Keeps (countAction w claimed p existing action record) fun t => I t.store := by
  refine .ite (.pure _) (.bind ?_ fun _ => .pure _)
  unfold knownCount
  split
  · exact .pure _
  · exact keeps_countCurrent hI _ _

theorem keeps_contentAction (seq id ordinal : Nat) (p : Changes Op) (action : DocumentAction Op)
    (record : Document) :
    Keeps (contentAction o w seq id ordinal p action record) fun t => I t.store := by
  unfold contentAction
  cases action.content with
  | none => exact .pure _
  | some content =>
    refine (keeps_latestRevision id).bind fun previous => (keeps_lift _).bind fun _ => ?_
    refine .ite (.pure _) (.ite (.pure _) (.bind ?_ fun _ => (keeps_lift _).bind fun _ => .pure _))
    exact .ite (.pure _) (keeps_readDocument hI id .current)

theorem keeps_prepareAction (seq : Nat) (writes : List (StorageWrite Op))
    (claimed : InsertionMap Nat DurableRecordKind) (p : Changes Op) (id : Nat)
    (action : DocumentAction Op) :
    Keeps (prepareAction o w seq writes claimed p id action) fun t => I t.store := by
  unfold prepareAction
  refine (keeps_document hI id).bind fun existing => .ite (.throw _) ?_
  cases recordAfter seq existing action with
  | none => exact .throw _
  | some record =>
    refine (keeps_countAction hI claimed _ _ action record).bind fun p => .bind ?_ fun _ => ?_
    · exact .ite (.map _ (keeps_get hI id)) (.pure _)
    · exact (keeps_contentAction hI seq id _ _ action record).bind fun _ => .pure _

theorem keeps_prepare (input : List (StorageWrite Op)) :
    Keeps (prepare o w input) fun t => I t.store := by
  unfold prepare
  refine keeps_store.bind fun s => .ite (.throw _) ?_
  refine .bind (.mapM (fun write => keeps_resolveCopy hI _ write) input) fun writes => ?_
  refine .bind (.foldlM (fun c write => keeps_claimWrite hI c write) writes _) fun c => ?_
  have hfold : Keeps (c.actions.entries.foldlM
      (fun p e => prepareAction o w (s.seq + 1) writes c.claimed p e.1 e.2) {}) fun t => I t.store :=
    by
      apply Keeps.foldlM
      intro p e
      exact keeps_prepareAction hI (s.seq + 1) writes c.claimed p e.1 e.2
  refine hfold.bind fun p => ?_
  split
  · exact .throw _
  · exact .pure _

end Keep

end Overlay
end Durable
end PiCloud
