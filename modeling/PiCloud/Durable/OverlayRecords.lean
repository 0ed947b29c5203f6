import PiCloud.Durable.OverlayReads

/-!
# Durable.OverlayRecords

The records of an overlay storage against the records that all acknowledged batches leave.

* `indexBatch`: what the projection does to its records with a batch.
* `Holds`, `Knows`: the current document of an address, and a storage whose overlay, caches and
  projection agree on the records.
* `get_known`, `findDocument_known`, `countCurrent_known`: what such a storage reads.
-/

namespace PiCloud
namespace Durable
namespace Overlay

open Lib
open Published (DocumentPoint)

/-! ## The records of the projection -/

section Projection

variable {Op : Type}

def IndexedRecord.retireAt (seq : Nat) : IndexedRecord → IndexedRecord
  | .value v seq ordinal => .value v seq ordinal
  | .document d => .document { d with retiredAt := some seq }

/-- The update that sets `retired_seq`. -/
def retireRow (seq : Nat) (rows : InsertionMap Nat IndexedRecord) (id : Nat) :
    InsertionMap Nat IndexedRecord :=
  match rows.get id with
  | some (.document d) => rows.set id (.document { d with retiredAt := some seq })
  | _ => rows

/-- The row that a write puts. -/
def rowOf (seq : Nat) (retired : List Nat) (write : StorageWrite Op × Nat) : Option IndexedRecord :=
  match write.1 with
  | .value v => some (.value v seq write.2)
  | .documentCreate record _ =>
    some (.document { record with
      createdAt := seq, retiredAt := if record.id ∈ retired then some seq else none })
  | _ => none

namespace Batch

variable (batch : Batch Op)

def retired : List Nat := batch.writes.filterMap StorageWrite.retired

def rows : List IndexedRecord := batch.writes.zipIdx.filterMap (rowOf batch.seq batch.retired)

end Batch

def putAll (m : InsertionMap Nat IndexedRecord) (records : List IndexedRecord) :
    InsertionMap Nat IndexedRecord :=
  records.foldl (fun m r => m.set r.id r) m

/-- `#indexBatch`, on the records -/
def indexBatch (rows : InsertionMap Nat IndexedRecord) (batch : Batch Op) :
    InsertionMap Nat IndexedRecord :=
  putAll (batch.retired.foldl (retireRow batch.seq) rows) batch.rows

def lastOf (id : Nat) (records : List IndexedRecord) : Option IndexedRecord :=
  (records.filter fun r => r.id = id).getLast?

theorem lastOf_append (id : Nat) (a b : List IndexedRecord) :
    lastOf id (a ++ b) = (lastOf id b).or (lastOf id a) := by
  unfold lastOf
  rw [List.filter_append, List.getLast?_append]

theorem lastOf_eq_none {id : Nat} {records : List IndexedRecord} :
    lastOf id records = none ↔ ∀ r ∈ records, r.id ≠ id := by
  unfold lastOf
  rw [List.getLast?_eq_none_iff, List.filter_eq_nil_iff]
  simp only [decide_eq_true_eq]

theorem lastOf_mem {id : Nat} {records : List IndexedRecord} {r : IndexedRecord}
    (h : lastOf id records = some r) : r ∈ records ∧ r.id = id := by
  have := List.mem_of_getLast? h
  rw [List.mem_filter, decide_eq_true_eq] at this
  exact this

theorem get_putAll (m : InsertionMap Nat IndexedRecord) (records : List IndexedRecord) (id : Nat) :
    (putAll m records).get id = (lastOf id records).or (m.get id) := by
  unfold putAll
  induction records generalizing m with
  | nil => rfl
  | cons r records ih =>
    have hsplit : r :: records = [r] ++ records := rfl
    rw [List.foldl_cons, ih, hsplit, lastOf_append, Option.or_assoc, InsertionMap.get_set]
    congr 1
    unfold lastOf
    by_cases hid : id = r.id
    · simp [hid]
    · simp [hid, Ne.symm hid]

theorem get_retireRow (seq : Nat) (rows : InsertionMap Nat IndexedRecord) (id j : Nat) :
    (retireRow seq rows id).get j =
      if j = id then (rows.get j).map (IndexedRecord.retireAt seq) else rows.get j := by
  unfold retireRow
  split
  · rename_i d hd
    rw [InsertionMap.get_set]
    split
    · rename_i hj
      rw [hj, hd]
      rfl
    · rfl
  · rename_i hnone
    split
    · rename_i hj
      subst hj
      cases hget : rows.get j with
      | none => rfl
      | some r =>
        cases r with
        | value v seq ordinal => rfl
        | document d => exact absurd hget (hnone d)
    · rfl

theorem retireAt_idem (seq : Nat) (r : IndexedRecord) : (r.retireAt seq).retireAt seq = r.retireAt seq := by
  cases r <;> rfl

theorem get_retireRows (seq : Nat) (retired : List Nat) (rows : InsertionMap Nat IndexedRecord)
    (j : Nat) : (retired.foldl (retireRow seq) rows).get j =
      if j ∈ retired then (rows.get j).map (IndexedRecord.retireAt seq) else rows.get j := by
  induction retired generalizing rows with
  | nil => rfl
  | cons id retired ih =>
    rw [List.foldl_cons, ih, get_retireRow]
    by_cases hid : j = id
    · subst hid
      rw [if_pos rfl, if_pos List.mem_cons_self, Option.map_map]
      have hcomp : IndexedRecord.retireAt seq ∘ IndexedRecord.retireAt seq = IndexedRecord.retireAt seq :=
        funext (retireAt_idem seq)
      rw [hcomp, ite_self]
    · rw [if_neg hid]
      simp only [List.mem_cons, hid, false_or]

def after (f : Nat → Option IndexedRecord) (batch : Batch Op) (id : Nat) : Option IndexedRecord :=
  (lastOf id batch.rows).or
    (if id ∈ batch.retired then (f id).map (IndexedRecord.retireAt batch.seq) else f id)

theorem get_indexBatch (rows : InsertionMap Nat IndexedRecord) (batch : Batch Op) :
    (indexBatch rows batch).get = after rows.get batch := by
  funext id
  unfold indexBatch after
  rw [get_putAll, get_retireRows]

end Projection

/-! ## A storage that knows its records -/

/-- The document is current at the address. -/
structure Holds (f : Nat → Option IndexedRecord) (a : Address) (d : Document) : Prop where
  stored : f d.id = some (.document d)
  address : documentAddress d.toDocumentCreate = a
  unretired : d.retiredAt = none

def Unique (f : Nat → Option IndexedRecord) : Prop :=
  ∀ a d e, Holds f a d → Holds f a e → d = e

def IsCurrent (f : Nat → Option IndexedRecord) (a : Address) (found : Option Document) : Prop :=
  ∀ d, found = some d ↔ Holds f a d

/-- The overlay, the caches and the projection that the queries find agree on the records `f`. -/
structure Knows {Op : Type} (w : World Op) (f : Nat → Option IndexedRecord) (s : Store Op) : Prop where
  keys : ∀ id r, f id = some r → r.id = id
  unique : Unique f
  overlay : ∀ id r, s.records.get id = some r → f id = some r
  absent : ∀ id, s.records.get id = none → s.coldSeq = 0 ∨ s.coldNextId ≤ id → f id = none
  rowKeys : ∀ q db id r, w q = some db → db.rows.get id = some r → r.id = id
  rows : ∀ q db id, w q = some db → s.records.get id = none → db.rows.get id = f id
  readCache : ∀ id found, s.records.get id = none → s.readCache.get id = some found → found = f id
  addresses : ∀ a found, s.addresses.get a = some found → IsCurrent f a found

section Known

variable {Op : Type} {o : Options Op} {w : World Op} {f : Nat → Option IndexedRecord} {s : Store Op}

theorem isCurrentAt_iff {r : IndexedRecord} {a : Address} :
    r.isCurrentAt a = true ↔ ∃ d, r = .document d ∧ documentAddress d.toDocumentCreate = a ∧
      d.retiredAt = none := by
  cases r with
  | value v seq ordinal => simp [IndexedRecord.isCurrentAt, IndexedRecord.document?]
  | document d => simp [IndexedRecord.isCurrentAt, IndexedRecord.document?]

theorem matches_current {r : IndexedRecord} {a : Address} :
    matchesRecord r (currentQuery a) = true ↔ r.isCurrentAt a = true := by
  cases r with
  | value v seq ordinal =>
    simp [matchesRecord, currentQuery, IndexedRecord.isCurrentAt, IndexedRecord.document?]
  | document d =>
    simp [matchesRecord, currentQuery, IndexedRecord.isCurrentAt, IndexedRecord.document?,
      IndexedRecord.index, Published.matchesRecord, Published.matchesPoint]
    exact and_comm

theorem ids_nodup {m : InsertionMap Nat IndexedRecord} (hkeys : ∀ id r, m.get id = some r → r.id = id) :
    ((m.entries.map Prod.snd).map IndexedRecord.id).Nodup := by
  have hids : (m.entries.map Prod.snd).map IndexedRecord.id = m.entries.map Prod.fst := by
    rw [List.map_map]
    exact List.map_congr_left fun e he => hkeys e.1 e.2 (InsertionMap.mem_entries.mp he)
  rw [hids]
  exact m.nodup

theorem take_inOrder {l m : List IndexedRecord} (h : ((l ++ m).map IndexedRecord.id).Nodup)
    (descending : Bool) (n : Nat) : (inOrder descending ((inOrder descending l).take n ++ m)).take n =
      (inOrder descending (l ++ m)).take n := by
  have hdual : ((l ++ m).map fun r => OrderDual.toDual r.id).Nodup := h
  unfold inOrder
  split
  · exact take_sortBy hdual n
  · exact take_sortBy h n

theorem Store.mem_overlay {r : IndexedRecord} (hkeys : ∀ id r, s.records.get id = some r → r.id = id) :
    r ∈ s.overlay ↔ s.records.get r.id = some r := by
  unfold Store.overlay
  rw [List.mem_map]
  constructor
  · rintro ⟨⟨id, r⟩, hmem, rfl⟩
    have hget := InsertionMap.mem_entries.mp hmem
    rwa [hkeys id r hget]
  · exact fun hget => ⟨(r.id, r), InsertionMap.mem_entries.mpr hget, rfl⟩

theorem Store.mem_overlayIds {id : Nat} : id ∈ s.overlayIds ↔ s.records.get id ≠ none := by
  unfold Store.overlayIds
  rw [Ne, InsertionMap.get_eq_none, not_not]

namespace Knows

theorem overlayKeys (h : Knows w f s) {id : Nat} {r : IndexedRecord}
    (hget : s.records.get id = some r) : r.id = id := h.keys id r (h.overlay id r hget)

theorem holds_of_stored (h : Knows w f s) {id : Nat} {r : IndexedRecord} {a : Address}
    (hstored : f id = some r) (hcurrent : r.isCurrentAt a = true) :
    ∃ d, r = .document d ∧ Holds f a d := by
  obtain ⟨d, rfl, ha, hd⟩ := isCurrentAt_iff.mp hcurrent
  have hid : d.id = id := h.keys id _ hstored
  exact ⟨d, rfl, hid ▸ hstored, ha, hd⟩

/-- What `get` finds is there. -/
theorem got (h : Knows w f s) {id : Nat} {r : Option IndexedRecord} {s' : Store Op}
    (hgot : Got w s id r s') : r = f id := by
  cases hgot with
  | overlay hget => exact (h.overlay _ _ hget).symm
  | absent hget hcold => exact (h.absent _ hget hcold).symm
  | cached hget hcache => exact h.readCache _ _ hget hcache
  | asked hget _ _ hdb => exact h.rows _ _ _ hdb hget
  | kept hget _ _ hdb => exact h.rows _ _ _ hdb hget

theorem currentAt_some (h : Knows w f s) {a : Address} {d : Document} (hd : s.currentAt a = some d) :
    Holds f a d := by
  obtain ⟨r, hfind, hr⟩ := Option.bind_eq_some_iff.mp hd
  have hmem := List.mem_of_find?_eq_some hfind
  have hget := (Store.mem_overlay fun _ _ => h.overlayKeys).mp hmem
  obtain ⟨e, rfl, he⟩ := h.holds_of_stored (h.overlay _ _ hget)
    (List.find?_some (p := fun r : IndexedRecord => r.isCurrentAt a) hfind)
  cases hr
  exact he

theorem currentAt_none (h : Knows w f s) {a : Address} {d : Document} (hnone : s.currentAt a = none)
    (hd : Holds f a d) : s.records.get d.id = none := by
  cases hget : s.records.get d.id with
  | none => rfl
  | some r =>
    have hr : r = .document d := Option.some.inj ((h.overlay _ _ hget).symm.trans hd.stored)
    subst hr
    have hmem := (Store.mem_overlay (r := .document d) fun _ _ => h.overlayKeys).mpr hget
    have hcurrent : (IndexedRecord.document d).isCurrentAt a = true :=
      isCurrentAt_iff.mpr ⟨d, rfl, hd.address, hd.unretired⟩
    unfold Store.currentAt at hnone
    cases hfind : s.overlay.find? fun r => r.isCurrentAt a with
    | none => exact absurd hcurrent (List.find?_eq_none.mp hfind _ hmem)
    | some r =>
      rw [hfind] at hnone
      obtain ⟨e, rfl, -⟩ := isCurrentAt_iff.mp (List.find?_some (p := fun r : IndexedRecord => r.isCurrentAt a) hfind)
      cases hnone

theorem mem_inOrder (descending : Bool) {rows : List IndexedRecord} {r : IndexedRecord} :
    r ∈ inOrder descending rows ↔ r ∈ rows := by
  unfold inOrder
  split <;> exact mem_sortBy

/-- Whatever the query found, the rows of a scan are the first of all the records that match. -/
theorem scanned_all (h : Knows w f s) {query : Query} {limit : Nat} {rows : List IndexedRecord}
    (hrows : Scanned w s query limit rows) :
    ∃ all : List IndexedRecord, (all.map IndexedRecord.id).Nodup ∧
      (∀ r, r ∈ all ↔ f r.id = some r ∧ matchesRecord r query = true) ∧
      rows = (inOrder query.descending all).take limit := by
  -- they are in the overlay, or the projection alone has them
  have hmerge : ∀ cold : List IndexedRecord, (cold.map IndexedRecord.id).Nodup →
      (∀ r, r ∈ cold ↔ f r.id = some r ∧ matchesRecord r query = true ∧ s.records.get r.id = none) →
      ∃ all : List IndexedRecord, (all.map IndexedRecord.id).Nodup ∧
        (∀ r, r ∈ all ↔ f r.id = some r ∧ matchesRecord r query = true) ∧
        s.merge query limit ((inOrder query.descending cold).take limit) =
          (inOrder query.descending all).take limit := by
    intro cold hcold hin
    have hlocal : ∀ r, r ∈ s.overlay.filter (matchesRecord · query) ↔
        s.records.get r.id = some r ∧ matchesRecord r query = true := by
      intro r
      rw [List.mem_filter, Store.mem_overlay fun _ _ => h.overlayKeys]
    have hids : ((cold ++ s.overlay.filter (matchesRecord · query)).map IndexedRecord.id).Nodup := by
      rw [List.map_append]
      refine List.nodup_append.mpr ⟨hcold,
        (ids_nodup fun _ _ => h.overlayKeys).sublist (List.filter_sublist.map _), ?_⟩
      rintro id hid _ hj rfl
      obtain ⟨r, hr, rfl⟩ := List.mem_map.mp hid
      obtain ⟨q, hq, hqr⟩ := List.mem_map.mp hj
      have hget := ((hlocal q).mp hq).1
      rw [hqr, ((hin r).mp hr).2.2] at hget
      cases hget
    refine ⟨_, hids, fun r => ?_, take_inOrder hids _ _⟩
    rw [List.mem_append, hin, hlocal]
    constructor
    · rintro (⟨hr, hmatch, -⟩ | ⟨hr, hmatch⟩)
      · exact ⟨hr, hmatch⟩
      · exact ⟨h.overlay _ _ hr, hmatch⟩
    · rintro ⟨hr, hmatch⟩
      cases hget : s.records.get r.id with
      | none => exact .inl ⟨hr, hmatch, rfl⟩
      | some q =>
        rw [h.overlay _ _ hget] at hr
        exact .inr ⟨hr, hmatch⟩
  cases hrows with
  | overlay hcold =>
    have hnil : (inOrder query.descending []).take limit = [] := by
      unfold inOrder
      split <;> exact List.take_nil
    have hnone := hmerge [] List.nodup_nil fun r => iff_of_false List.not_mem_nil ?_
    · rwa [hnil] at hnone
    rintro ⟨hr, hmatch, hget⟩
    have hnone := h.absent r.id hget (hcold.imp id fun hmin => ?_)
    · rw [hr] at hnone
      cases hnone
    · obtain ⟨m, hm, hle⟩ := (Option.any_eq_true _ _).mp hmin
      have hid : r.index.id = r.id := by cases r <;> rfl
      simp only [matchesRecord, Published.matchesRecord, hm, hid, Option.all_some, Bool.and_eq_true,
        decide_eq_true_eq] at hmatch hle
      omega
  | @merged q db hcold hq =>
    have hkeys := (h.rowKeys q db · · hq)
    refine hmerge _ ((ids_nodup hkeys).sublist (List.filter_sublist.map _)) fun r => ?_
    have hmem : r ∈ db.records ↔ db.rows.get r.id = some r :=
      Store.mem_overlay (s := { s with records := db.rows }) hkeys
    rw [List.mem_filter, hmem, Bool.and_eq_true, decide_eq_true_eq, Store.mem_overlayIds, not_not]
    constructor
    · rintro ⟨hr, hmatch, hget⟩
      exact ⟨h.rows q db _ hq hget ▸ hr, hmatch, hget⟩
    · rintro ⟨hr, hmatch, hget⟩
      exact ⟨(h.rows q db _ hq hget).trans hr, hmatch, hget⟩

theorem scanned (h : Knows w f s) {a : Address} {rows : List IndexedRecord}
    (hrows : Scanned w s (currentQuery a) 1 rows) :
    IsCurrent f a (rows.head?.bind IndexedRecord.document?) := by
  obtain ⟨all, -, hall, rfl⟩ := h.scanned_all hrows
  intro d
  cases hsorted : inOrder (currentQuery a).descending all with
  | nil =>
    refine ⟨fun hnone => (nomatch hnone), fun hd => ?_⟩
    have hmem : .document d ∈ inOrder (currentQuery a).descending all := (mem_inOrder _).mpr ((hall _).mpr
      ⟨hd.stored, matches_current.mpr (isCurrentAt_iff.mpr ⟨d, rfl, hd.address, hd.unretired⟩)⟩)
    rw [hsorted] at hmem
    cases hmem
  | cons r l =>
    obtain ⟨hr, hmatch⟩ := (hall r).mp ((mem_inOrder _).mp (by rw [hsorted]; exact List.mem_cons_self))
    obtain ⟨e, rfl, he⟩ := h.holds_of_stored hr (matches_current.mp hmatch)
    change some e = some d ↔ _
    rw [Option.some_inj]
    exact ⟨fun heq => heq ▸ he, fun hd => h.unique a e d he hd⟩

end Knows

/-! ## The caches -/

theorem get_bounded_some {κ ν : Type} [DecidableEq κ] {m : InsertionMap κ ν} {k : κ} {v : ν}
    (h : (bounded m).get k = some v) : m.get k = some v := by
  unfold bounded at h
  split at h
  · exact InsertionMap.get_deleteOldest_some h
  · exact h

def Store.held (s : Store Op) : Store Op := { s with readCache := {}, addresses := {} }

theorem knows_cacheRecord (h : Knows w f s) {id : Nat} {found : Option IndexedRecord}
    (hfound : found = f id) : Knows w f (s.cacheRecord id found) where
  keys := h.keys
  unique := h.unique
  overlay := h.overlay
  absent := h.absent
  rowKeys := h.rowKeys
  rows := h.rows
  readCache j found' hget hcache := by
    change ((bounded s.readCache).set id found).get j = some found' at hcache
    rw [InsertionMap.get_set] at hcache
    split at hcache
    · rename_i hj
      cases hcache
      rw [hj]
      exact hfound
    · exact h.readCache j found' hget (get_bounded_some hcache)
  addresses := h.addresses

theorem knows_cacheAddress (h : Knows w f s) {a : Address} {found : Option Document}
    (hfound : IsCurrent f a found) : Knows w f (s.cacheAddress a found) where
  keys := h.keys
  unique := h.unique
  overlay := h.overlay
  absent := h.absent
  rowKeys := h.rowKeys
  rows := h.rows
  readCache := h.readCache
  addresses b found' hcache := by
    change ((bounded s.addresses).set a found).get b = some found' at hcache
    rw [InsertionMap.get_set] at hcache
    split at hcache
    · rename_i hb
      cases hcache
      rw [hb]
      exact hfound
    · exact h.addresses b found' (get_bounded_some hcache)

/-- A storage at work that knows its records, and is the one it was but for its caches. -/
structure Still (w : World Op) (f : Nat → Option IndexedRecord) (s s' : Store Op) : Prop where
  knows : Knows w f s'
  held : s'.held = s.held

theorem closed_still : CacheClosed w (Still w f s) where
  record _ q db id h hdb hget _ _ :=
    ⟨knows_cacheRecord h.knows (h.knows.rows q db id hdb hget), h.held⟩
  address _ _ _ h _ _ hrows := ⟨knows_cacheAddress h.knows (h.knows.scanned hrows), h.held⟩

/-! ## What is read -/

variable {t : Working Op}

theorem get_known (id : Nat) (h : Still w f s t.store) :
    Ends (get o w id) t (fun r t' => r = f id ∧ Still w f s t'.store) fun _ t' => Still w f s t'.store :=
  ((keeps_get closed_still id).ends (get_got id) h).imp
    (fun _ _ hr => ⟨h.knows.got hr.1, hr.2⟩) fun _ _ he => he.2

theorem document_known (id : Nat) (h : Still w f s t.store) :
    Ends (document o w id) t
      (fun r t' => r = (f id).bind IndexedRecord.document? ∧ Still w f s t'.store)
      fun _ t' => Still w f s t'.store :=
  (get_known id h).bind fun r t' hr => .pure ⟨by rw [hr.1], hr.2⟩

theorem findDocument_known (a : Address) (h : Still w f s t.store) :
    Ends (findDocument w a .current) t (fun r t' => IsCurrent f a r ∧ Still w f s t'.store)
      fun _ t' => Still w f s t'.store := by
  refine ((keeps_findDocument closed_still a .current).ends
    (Q := fun r _ => IsCurrent f a r) (E := fun _ _ => True) ?_ h).imp (fun _ _ hr => hr) fun _ _ he => he.2
  unfold findDocument
  refine ends_store_bind ?_
  dsimp only
  cases hcached : t.store.addresses.get a with
  | some found => exact .pure (h.knows.addresses a found hcached)
  | none =>
    cases hlocal : t.store.currentAt a with
    | some d =>
      have hd := h.knows.currentAt_some hlocal
      refine .pure fun e => ?_
      rw [Option.some_inj]
      exact ⟨fun heq => heq ▸ hd, fun he => h.knows.unique a d e hd he⟩
    | none =>
      refine Ends.bind ((scan_scanned (currentQuery a) 1).imp (fun _ _ h => h) fun _ _ _ => trivial) ?_
      rintro rows t' ⟨hrows, -⟩
      refine Ends.bind (Q := fun _ _ => True) (ends_change trivial) ?_
      rintro ⟨⟩ t'' -
      exact .pure (h.knows.scanned hrows)

/-- How many documents are current at an address. -/
inductive IsCount (f : Nat → Option IndexedRecord) (a : Address) : Int → Prop where
  | one {d : Document} (h : Holds f a d) : IsCount f a 1
  | none (h : ∀ d, ¬ Holds f a d) : IsCount f a 0

theorem exists_count (f : Nat → Option IndexedRecord) (a : Address) : ∃ c, IsCount f a c := by
  by_cases h : ∃ d, Holds f a d
  · obtain ⟨d, hd⟩ := h
    exact ⟨1, .one hd⟩
  · exact ⟨0, .none fun d hd => h ⟨d, hd⟩⟩

theorem IsCount.eq {a : Address} {c c' : Int} (h : IsCount f a c) (h' : IsCount f a c') : c = c' := by
  cases h with
  | one hd =>
    cases h' with
    | one => rfl
    | none hn => exact absurd hd (hn _)
  | none hn =>
    cases h' with
    | one hd => exact absurd hd (hn _)
    | none => rfl

theorem IsCurrent.count {a : Address} {found : Option Document} (h : IsCurrent f a found) :
    IsCount f a (if found.isSome then 1 else 0) := by
  cases found with
  | none => exact .none fun d hd => (nomatch (h d).mpr hd)
  | some d => exact .one ((h d).mp rfl)

def OwnersKnown (s : Store Op) (claimed : InsertionMap Nat DurableRecordKind)
    (f : Nat → Option IndexedRecord) (a : Address) : Prop :=
  isNewOwner s claimed a.scope = true → ∀ d, Holds f a d → s.records.get d.id ≠ none

theorem countCurrent_known {claimed : InsertionMap Nat DurableRecordKind} (a : Address)
    (h : Still w f s t.store) (howners : OwnersKnown s claimed f a) :
    Ends (countCurrent w claimed a) t (fun c t' => IsCount f a c ∧ Still w f s t'.store)
      fun _ t' => Still w f s t'.store := by
  have hrecords : t.store.held.records = s.held.records := by rw [h.held]
  have hcold : t.store.held.coldNextId = s.held.coldNextId := by rw [h.held]
  change t.store.records = s.records at hrecords
  change t.store.coldNextId = s.coldNextId at hcold
  unfold countCurrent
  refine ends_store_bind ?_
  split
  · rename_i hnew
    refine .pure ⟨?_, h⟩
    have hnew' : isNewOwner s claimed a.scope = true := by
      unfold isNewOwner at hnew ⊢
      rwa [hrecords, hcold] at hnew
    cases hlocal : t.store.currentAt a with
    | some d => exact .one (h.knows.currentAt_some hlocal)
    | none =>
      refine .none fun d hd => howners hnew' d hd ?_
      rw [← hrecords]
      exact h.knows.currentAt_none hlocal hd
  · exact (findDocument_known a h).bind fun r t' hr => .pure ⟨hr.1.count, hr.2⟩

end Known

end Overlay
end Durable
end PiCloud
