import Mathlib.Algebra.BigOperators.Group.Finset.Piecewise
import Mathlib.Algebra.Order.BigOperators.Group.Finset
import PiCloud.Durable.OverlayPreparation

/-!
# Durable.OverlayAdoption

What the storage is once a prepared batch is acknowledged.

* `Accepted.touched`, `Accepted.untouched`: the overlay gets the records that the projection will have.
* `Accepted.unique`: at most one document stays current at an address.
* `Meets`: the condition under which the cached documents of addresses stay right.
* `adopt_knows`: a storage that knew its records knows those after the batch.
-/

namespace PiCloud
namespace Durable
namespace Overlay

open Lib
open Published (DocumentPoint)

section Adoption

variable {Op : Type} {o : Options Op} {w : World Op} {f : Nat → Option IndexedRecord} {s : Store Op}

/-! ## Records of a batch -/

theorem retireAt_id (seq : Nat) (r : IndexedRecord) : (r.retireAt seq).id = r.id := by
  cases r <;> rfl

theorem lastOf_entries {ν : Type} (m : InsertionMap Nat ν) (g : Nat × ν → Option IndexedRecord)
    (hg : ∀ e ∈ m.entries, ∀ r, g e = some r → r.id = e.1) (id : Nat) :
    lastOf id (m.entries.filterMap g) = (m.get id).bind fun v => g (id, v) := by
  cases hlast : lastOf id (m.entries.filterMap g) with
  | some r =>
    obtain ⟨hmem, hid⟩ := lastOf_mem hlast
    obtain ⟨e, he, hr⟩ := List.mem_filterMap.mp hmem
    have hkey : e.1 = id := (hg e he r hr).symm.trans hid
    have hget : m.get id = some e.2 := InsertionMap.mem_entries.mp (hkey ▸ he)
    rw [hget, Option.bind_some, ← hkey]
    exact hr.symm
  | none =>
    cases hget : m.get id with
    | none => rfl
    | some v =>
      rw [Option.bind_some]
      cases hr : g (id, v) with
      | none => rfl
      | some r =>
        have he := InsertionMap.mem_entries.mpr hget
        exact absurd (hg _ he r hr) (lastOf_eq_none.mp hlast r (List.mem_filterMap.mpr ⟨_, he, hr⟩))

theorem lastOf_rows {batch : Batch Op} {id : Nat}
    (h : ∀ record ∈ batch.writes.filterMap StorageWrite.created, record.id ≠ id) :
    lastOf id batch.rows = lastOf id (valueRecords batch.seq batch.writes) := by
  have hfilter : ∀ l : List (StorageWrite Op × Nat), (∀ x ∈ l, x.1 ∈ batch.writes) →
      (l.filterMap (rowOf batch.seq batch.retired)).filter (·.id = id) =
        (l.filterMap fun write => write.1.value?.map fun v =>
          IndexedRecord.value v batch.seq write.2).filter (·.id = id) := by
    intro l hl
    induction l with
    | nil => rfl
    | cons x l ih =>
      have hrest := ih fun y hy => hl y (List.mem_cons_of_mem x hy)
      obtain ⟨write, ordinal⟩ := x
      have hwrite := hl _ List.mem_cons_self
      cases write with
      | value v =>
        simp only [List.filterMap_cons, rowOf, StorageWrite.value?, Option.map_some, List.filter_cons, hrest]
      | documentCreate record content =>
        have hne : record.id ≠ id := h record (List.mem_filterMap.mpr ⟨_, hwrite, rfl⟩)
        refine (List.filter_cons_of_neg fun heq => hne ?_).trans hrest
        exact of_decide_eq_true heq
      | documentChange | documentRetire | documentCopy =>
        simp only [List.filterMap_cons, rowOf, StorageWrite.value?, Option.map_none, hrest]
  unfold lastOf Batch.rows valueRecords
  rw [hfilter _ fun x hx => List.fst_mem_of_mem_zipIdx hx]

namespace Accepted

variable {input : List (StorageWrite Op)} {prepared : Prepared Op} {c : Claims Op}

theorem create_of_mem (h : Accepted f s input prepared c) {record : DocumentCreate}
    (hmem : record ∈ prepared.batch.writes.filterMap StorageWrite.created) :
    ∃ action, c.actions.get record.id = some action ∧ action.create = some record := by
  have hcreate := (h.gathered.create record.id record).mpr ⟨hmem, rfl⟩
  cases hget : c.actions.get record.id with
  | none =>
    rw [hget] at hcreate
    cases hcreate
  | some action =>
    rw [hget] at hcreate
    exact ⟨action, rfl, hcreate⟩

theorem action_of_get (h : Accepted f s input prepared c) {id : Nat} {action : DocumentAction Op}
    (hget : c.actions.get id = some action) :
    (∀ record, action.create = some record ↔
      record ∈ prepared.batch.writes.filterMap StorageWrite.created ∧ record.id = id) ∧
      (action.retire = true ↔ id ∈ prepared.batch.retired) := by
  have hcreate := h.gathered.create id
  have hretire := h.gathered.retire id
  rw [hget] at hcreate hretire
  exact ⟨hcreate, hretire⟩

theorem create_free (h : Accepted f s input prepared c) {record : DocumentCreate}
    (hmem : record ∈ prepared.batch.writes.filterMap StorageWrite.created) : f record.id = none := by
  obtain ⟨write, hwrite, hcreated⟩ := List.mem_filterMap.mp hmem
  have hclaim : write.claim = some (record.id, .document) := by
    cases write with
    | documentCreate r content =>
      cases hcreated
      rfl
    | documentCopy r source point =>
      cases hcreated
      rfl
    | value | documentChange | documentRetire => cases hcreated
  cases hf : f record.id with
  | none => rfl
  | some r =>
    have := (h.claimed.free write hwrite _ _ hclaim r hf).2
    cases this

theorem value_apart (h : Accepted f s input prepared c) {v : Value}
    (hmem : StorageWrite.value v ∈ prepared.batch.writes) :
    (∀ record ∈ prepared.batch.writes.filterMap StorageWrite.created, record.id ≠ v.id) ∧
      documentOf f v.id = none := by
  constructor
  · intro record hrecord hid
    obtain ⟨write, hwrite, hcreated⟩ := List.mem_filterMap.mp hrecord
    have hvalue := h.claimed.claimed _ hmem v.id (.value v.kind) rfl
    have hclaim : write.claim = some (record.id, .document) := by
      cases write with
      | documentCreate r content =>
        cases hcreated
        rfl
      | documentCopy r source point =>
        cases hcreated
        rfl
      | value | documentChange | documentRetire => cases hcreated
    have hdocument := h.claimed.claimed write hwrite record.id .document hclaim
    rw [hid, hvalue] at hdocument
    cases hdocument
  · unfold documentOf
    cases hf : f v.id with
    | none => rfl
    | some r =>
      have hkind := (h.claimed.free _ hmem v.id (.value v.kind) rfl r hf).1
      cases r with
      | value => rfl
      | document => cases hkind

theorem recordAfter_id (h : Accepted f s input prepared c) (hkeys : ∀ id r, f id = some r → r.id = id)
    {id : Nat} {action : DocumentAction Op} (hget : c.actions.get id = some action) {record : Document}
    (hrecord : recordAfter (s.seq + 1) (documentOf f id) action = some record) : record.id = id := by
  unfold recordAfter at hrecord
  dsimp only at hrecord
  cases hcreate : action.create with
  | some create =>
    rw [hcreate] at hrecord
    have hid := ((h.action_of_get hget).1 create).mp hcreate |>.2
    cases hrecord
    split <;> exact hid
  | none =>
    rw [hcreate] at hrecord
    obtain ⟨d, hd, rfl⟩ := Option.map_eq_some_iff.mp hrecord
    obtain ⟨r, hr, hrd⟩ := Option.bind_eq_some_iff.mp hd
    have hid := hkeys id r hr
    cases r with
    | value => cases hrd
    | document =>
      cases hrd
      split <;> exact hid

theorem lastOf_records (h : Accepted f s input prepared c)
    (hkeys : ∀ id r, f id = some r → r.id = id) (id : Nat) :
    lastOf id prepared.changes.records =
      (lastOf id (valueRecords (s.seq + 1) prepared.batch.writes)).or
        ((c.actions.get id).bind fun action => recordFor f (s.seq + 1) (id, action)) := by
  rw [h.records, lastOf_append, lastOf_entries c.actions]
  intro e he r hr
  unfold recordFor at hr
  split at hr
  · obtain ⟨record, hrecord, rfl⟩ := Option.map_eq_some_iff.mp hr
    exact h.recordAfter_id hkeys (InsertionMap.mem_entries.mp he) hrecord
  · cases hr

theorem mem_valueRecords {seq : Nat} {writes : List (StorageWrite Op)} {r : IndexedRecord}
    (h : r ∈ valueRecords seq writes) :
    ∃ v ordinal, r = .value v seq ordinal ∧ StorageWrite.value v ∈ writes := by
  obtain ⟨⟨write, ordinal⟩, hmem, hr⟩ := List.mem_filterMap.mp h
  obtain ⟨v, hv, rfl⟩ := Option.map_eq_some_iff.mp hr
  cases write with
  | value v' =>
    cases hv
    exact ⟨v, ordinal, rfl, List.fst_mem_of_mem_zipIdx hmem⟩
  | documentCreate | documentChange | documentRetire | documentCopy => cases hv

theorem recordFor_after (h : Accepted f s input prepared c)
    (hkeys : ∀ id r, f id = some r → r.id = id) {id : Nat} {action : DocumentAction Op}
    (hget : c.actions.get id = some action) {record : Document}
    (hrecord : recordAfter (s.seq + 1) (documentOf f id) action = some record) :
    after f prepared.batch id = some (.document record) := by
  obtain ⟨hcreate, hretire⟩ := h.action_of_get hget
  have hid := h.recordAfter_id hkeys hget hrecord
  have hvalues : ∀ v, StorageWrite.value v ∈ prepared.batch.writes → v.id ≠ id := by
    intro v hv hvid
    obtain ⟨hapart, hnone⟩ := h.value_apart hv
    unfold recordAfter at hrecord
    cases hc : action.create with
    | some create =>
      obtain ⟨hmem, hcid⟩ := (hcreate create).mp hc
      exact hapart create hmem (hcid.trans hvid.symm)
    | none =>
      rw [hc, ← hvid, hnone] at hrecord
      cases hrecord
  unfold after
  cases hc : action.create with
  | some create =>
    obtain ⟨hmem, hcid⟩ := (hcreate create).mp hc
    have hrow : lastOf id prepared.batch.rows = some (.document record) := by
      obtain ⟨write, hwrite, hcreated⟩ := List.mem_filterMap.mp hmem
      have hplain : write.isCopy = false := by
        obtain ⟨_, -, hr⟩ := exists_of_mem_right h.resolved hwrite
        exact hr.plain
      have hform : record = { create with
          createdAt := s.seq + 1
          retiredAt := if create.id ∈ prepared.batch.retired then some (s.seq + 1) else none } := by
        unfold recordAfter at hrecord
        rw [hc] at hrecord
        cases hrecord
        dsimp only
        rw [hcid]
        by_cases hr : action.retire = true
        · rw [if_pos hr, if_pos (hretire.mp hr)]
        · rw [if_neg hr, if_neg (mt hretire.mpr hr)]
      have hin : .document record ∈ prepared.batch.rows := by
        cases write with
        | documentCreate r content =>
          cases hcreated
          obtain ⟨i, hi, hget⟩ := List.mem_iff_getElem.mp hwrite
          refine List.mem_filterMap.mpr ⟨(prepared.batch.writes[i], i), ?_, ?_⟩
          · exact List.mem_zipIdx_iff_getElem?.mpr (List.getElem?_eq_getElem hi)
          · unfold rowOf
            rw [hget]
            dsimp only
            rw [h.seq, hform]
        | documentCopy => cases hplain
        | value | documentChange | documentRetire => cases hcreated
      cases hlast : lastOf id prepared.batch.rows with
      | none => exact absurd hid (lastOf_eq_none.mp hlast _ hin)
      | some r =>
        obtain ⟨hr, hrid⟩ := lastOf_mem hlast
        obtain ⟨⟨write', ordinal⟩, hwrite', hrow⟩ := List.mem_filterMap.mp hr
        have hmem' := List.fst_mem_of_mem_zipIdx hwrite'
        cases write' with
        | value v =>
          cases hrow
          exact absurd hrid (hvalues v hmem')
        | documentCreate r' content =>
          cases hrow
          have heq := (hcreate r').mpr ⟨List.mem_filterMap.mpr ⟨_, hmem', rfl⟩, hrid⟩
          rw [hc] at heq
          cases heq
          rw [h.seq, hform]
        | documentChange | documentRetire | documentCopy => cases hrow
    rw [hrow]
    rfl
  | none =>
    have hrows : lastOf id prepared.batch.rows = none := by
      rw [lastOf_rows (fun r hr hrid => by
        have := (hcreate r).mpr ⟨hr, hrid⟩
        rw [hc] at this
        cases this)]
      refine lastOf_eq_none.mpr fun r hr => ?_
      obtain ⟨v, ordinal, rfl, hv⟩ := mem_valueRecords hr
      exact hvalues v hv
    rw [hrows, Option.none_or, h.seq]
    unfold recordAfter at hrecord
    rw [hc] at hrecord
    obtain ⟨d, hd, rfl⟩ := Option.map_eq_some_iff.mp hrecord
    obtain ⟨r, hr, hrd⟩ := Option.bind_eq_some_iff.mp hd
    cases r with
    | value => cases hrd
    | document =>
      cases hrd
      by_cases hret : action.retire = true
      · rw [if_pos hret, if_pos (hretire.mp hret), hr]
        rfl
      · rw [if_neg hret, if_neg (mt hretire.mpr hret), hr]

theorem touched (h : Accepted f s input prepared c) (hkeys : ∀ id r, f id = some r → r.id = id)
    {id : Nat} {r : IndexedRecord} (hlast : lastOf id prepared.changes.records = some r) :
    after f prepared.batch id = some r := by
  rw [h.lastOf_records hkeys] at hlast
  cases hvalue : lastOf id (valueRecords (s.seq + 1) prepared.batch.writes) with
  | some r' =>
    rw [hvalue, Option.some_or] at hlast
    cases hlast
    obtain ⟨hmem, hid⟩ := lastOf_mem hvalue
    obtain ⟨v, ordinal, rfl, hv⟩ := mem_valueRecords hmem
    have hapart := (h.value_apart hv).1
    have hvid : v.id = id := hid
    rw [hvid] at hapart
    unfold after
    rw [lastOf_rows hapart, h.seq, hvalue]
    rfl
  | none =>
    rw [hvalue, Option.none_or] at hlast
    obtain ⟨action, hget, hr⟩ := Option.bind_eq_some_iff.mp hlast
    unfold recordFor at hr
    split at hr
    · obtain ⟨record, hrecord, rfl⟩ := Option.map_eq_some_iff.mp hr
      exact h.recordFor_after hkeys hget hrecord
    · cases hr

theorem untouched (h : Accepted f s input prepared c) (hkeys : ∀ id r, f id = some r → r.id = id)
    {id : Nat} (hlast : lastOf id prepared.changes.records = none) :
    after f prepared.batch id = f id ∧ id ∉ prepared.batch.retired ∧
      ∀ record ∈ prepared.batch.writes.filterMap StorageWrite.created, record.id ≠ id := by
  rw [h.lastOf_records hkeys, Option.or_eq_none_iff] at hlast
  obtain ⟨hvalue, haction⟩ := hlast
  have hidle : ∀ action, c.actions.get id = some action → action.create = none ∧ action.retire = false := by
    intro action hget
    rw [hget, Option.bind_some] at haction
    have hfound := h.found (id, action) (InsertionMap.mem_entries.mpr hget)
    unfold recordFor at haction
    split at haction
    · exact absurd (Option.map_eq_none_iff.mp haction) hfound
    · rename_i hidle
      rw [Bool.not_eq_true, Bool.or_eq_false_iff] at hidle
      refine ⟨?_, hidle.2⟩
      cases hc : action.create with
      | none => rfl
      | some create =>
        rw [show (id, action).2.create = some create from hc] at hidle
        cases hidle.1
  have hcreated : ∀ record ∈ prepared.batch.writes.filterMap StorageWrite.created, record.id ≠ id := by
    rintro record hrecord rfl
    obtain ⟨action, hget, hc⟩ := h.create_of_mem hrecord
    rw [(hidle action hget).1] at hc
    cases hc
  have hretired : id ∉ prepared.batch.retired := by
    intro hmem
    have hretire := (h.gathered.retire id).mpr hmem
    cases hget : c.actions.get id with
    | none =>
      rw [hget] at hretire
      cases hretire
    | some action =>
      rw [hget, Option.getD_some, (hidle action hget).2] at hretire
      cases hretire
  refine ⟨?_, hretired, hcreated⟩
  unfold after
  rw [lastOf_rows hcreated, h.seq, hvalue, Option.none_or, if_neg hretired]

theorem kind_kept (h : Accepted f s input prepared c) (hkeys : ∀ id r, f id = some r → r.id = id)
    {id : Nat} {r : IndexedRecord} (hr : f id = some r) :
    ∃ r', after f prepared.batch id = some r' ∧ r'.kind = r.kind := by
  cases hlast : lastOf id prepared.changes.records with
  | none => exact ⟨r, (h.untouched hkeys hlast).1.trans hr, rfl⟩
  | some r' =>
    refine ⟨r', h.touched hkeys hlast, ?_⟩
    rw [h.lastOf_records hkeys] at hlast
    cases hvalue : lastOf id (valueRecords (s.seq + 1) prepared.batch.writes) with
    | some r'' =>
      rw [hvalue, Option.some_or] at hlast
      cases hlast
      obtain ⟨hmem, hid⟩ := lastOf_mem hvalue
      obtain ⟨v, ordinal, rfl, hv⟩ := mem_valueRecords hmem
      have hvid : v.id = id := hid
      exact (h.claimed.free _ hv v.id (.value v.kind) rfl r (hvid ▸ hr)).1.symm
    | none =>
      rw [hvalue, Option.none_or] at hlast
      obtain ⟨action, hget, hrecord⟩ := Option.bind_eq_some_iff.mp hlast
      unfold recordFor at hrecord
      split at hrecord
      · obtain ⟨record, hafter, rfl⟩ := Option.map_eq_some_iff.mp hrecord
        unfold recordAfter at hafter
        cases hc : action.create with
        | some create =>
          obtain ⟨hmem, hcid⟩ := ((h.action_of_get hget).1 create).mp hc
          have := h.create_free hmem
          rw [hcid, hr] at this
          cases this
        | none =>
          rw [show (id, action).2.create = none from hc] at hafter
          obtain ⟨d, hd, -⟩ := Option.map_eq_some_iff.mp hafter
          unfold documentOf at hd
          rw [show f (id, action).1 = some r from hr] at hd
          cases r with
          | value => cases hd
          | document => rfl
      · cases hrecord

theorem after_keys (hkeys : ∀ id r, f id = some r → r.id = id) (batch : Batch Op) {id : Nat}
    {r : IndexedRecord} (hr : after f batch id = some r) : r.id = id := by
  unfold after at hr
  cases hlast : lastOf id batch.rows with
  | some r' =>
    rw [hlast, Option.some_or] at hr
    cases hr
    exact (lastOf_mem hlast).2
  | none =>
    rw [hlast, Option.none_or] at hr
    split at hr
    · obtain ⟨r', hr', rfl⟩ := Option.map_eq_some_iff.mp hr
      rw [retireAt_id]
      exact hkeys id r' hr'
    · exact hkeys id r hr

theorem after_below (h : Accepted f s input prepared c)
    (hbelow : ∀ id r, f id = some r → id < s.nextId) {id : Nat} {r : IndexedRecord}
    (hr : after f prepared.batch id = some r) : id < prepared.batch.nextId := by
  rw [h.nextId]
  have hold : ∀ r', f id = some r' → id < c.nextId := fun r' hr' =>
    Nat.lt_of_lt_of_le (hbelow id r' hr') h.claimed.start
  cases hlast : lastOf id prepared.batch.rows with
  | some r' =>
    obtain ⟨hmem, hid⟩ := lastOf_mem hlast
    obtain ⟨⟨write, ordinal⟩, hwrite, hrow⟩ := List.mem_filterMap.mp hmem
    have hin := List.fst_mem_of_mem_zipIdx hwrite
    subst hid
    cases write with
    | value v =>
      cases hrow
      exact h.claimed.below _ hin _ _ rfl
    | documentCreate record content =>
      cases hrow
      exact h.claimed.below _ hin _ _ rfl
    | documentChange | documentRetire | documentCopy => cases hrow
  | none =>
    unfold after at hr
    rw [hlast, Option.none_or] at hr
    split at hr
    · obtain ⟨r', hr', -⟩ := Option.map_eq_some_iff.mp hr
      exact hold r' hr'
    · exact hold r hr

/-! ## Addresses -/

open Classical in
/-- The document of an id is current at the address. -/
noncomputable def currentIs (g : Nat → Option IndexedRecord) (a : Address) (id : Nat) : Int :=
  if ∃ d, Holds g a d ∧ d.id = id then 1 else 0

theorem currentIs_one {g : Nat → Option IndexedRecord} {a : Address} {d : Document} (h : Holds g a d) :
    currentIs g a d.id = 1 := if_pos ⟨d, h, rfl⟩

theorem currentIs_document {g : Nat → Option IndexedRecord} {a : Address} {id : Nat} {d : Document}
    (hid : d.id = id) (hget : g id = some (.document d)) :
    currentIs g a id =
      if documentAddress d.toDocumentCreate = a ∧ d.retiredAt = none then 1 else 0 := by
  by_cases hcurrent : documentAddress d.toDocumentCreate = a ∧ d.retiredAt = none
  · rw [if_pos hcurrent]
    exact if_pos ⟨d, ⟨hid ▸ hget, hcurrent.1, hcurrent.2⟩, hid⟩
  · rw [if_neg hcurrent]
    refine if_neg fun ⟨e, he, heid⟩ => hcurrent ?_
    have hstored := he.stored
    rw [heid, hget] at hstored
    cases hstored
    exact ⟨he.address, he.unretired⟩

theorem currentIs_other {g : Nat → Option IndexedRecord} {a : Address} {id : Nat}
    (h : ∀ d, g id ≠ some (.document d)) : currentIs g a id = 0 :=
  if_neg fun ⟨d, hd, hid⟩ => h d (hid ▸ hd.stored)

theorem currentIs_congr {g g' : Nat → Option IndexedRecord} {a : Address} {id : Nat}
    (h : g' id = g id) : currentIs g' a id = currentIs g a id := by
  by_cases hcurrent : ∃ d, Holds g a d ∧ d.id = id
  · obtain ⟨d, hd, rfl⟩ := hcurrent
    rw [currentIs_one hd]
    exact currentIs_one ⟨h.trans hd.stored, hd.address, hd.unretired⟩
  · unfold currentIs
    rw [if_neg hcurrent]
    refine if_neg fun ⟨d, hd, hid⟩ => hcurrent ⟨d, ⟨?_, hd.address, hd.unretired⟩, hid⟩
    have hstored := hd.stored
    rw [hid] at hstored ⊢
    exact h.symm.trans hstored

theorem effect_eq (h : Accepted f s input prepared c) (hkeys : ∀ id r, f id = some r → r.id = id)
    (a : Address) {e : Nat × DocumentAction Op} (he : e ∈ c.actions.entries) :
    effect f (s.seq + 1) a e = currentIs (after f prepared.batch) a e.1 - currentIs f a e.1 := by
  obtain ⟨id, action⟩ := e
  have hget := InsertionMap.mem_entries.mp he
  have hunretired := h.unretired _ he
  dsimp only at hunretired ⊢
  unfold effect
  cases hrecord : recordAfter (s.seq + 1) (documentOf f id) action with
  | none => exact absurd hrecord (h.found _ he)
  | some record =>
    dsimp only
    have hid := h.recordAfter_id hkeys hget hrecord
    have hnew := h.recordFor_after hkeys hget hrecord
    rw [currentIs_document hid hnew]
    unfold recordAfter at hrecord
    cases hc : action.create with
    | some create =>
      obtain ⟨hmem, hcid⟩ := ((h.action_of_get hget).1 create).mp hc
      have hfree := h.create_free hmem
      rw [hcid] at hfree
      rw [currentIs_other fun d hd => by
        rw [hfree] at hd
        cases hd]
      have hnone : documentOf f id = none := by
        unfold documentOf
        rw [hfree]
        rfl
      rw [hc] at hrecord
      cases hrecord
      rw [hnone]
      cases action.retire <;> simp
    | none =>
      rw [hc] at hrecord
      obtain ⟨d, hd, rfl⟩ := Option.map_eq_some_iff.mp hrecord
      obtain ⟨r, hr, hrd⟩ := Option.bind_eq_some_iff.mp hd
      have hr' : r = .document d := by
        cases r with
        | value => cases hrd
        | document =>
          cases hrd
          rfl
      subst hr'
      rw [currentIs_document (hkeys id _ hr) hr, hd, hunretired d hd]
      cases action.retire with
      | false => simp [hunretired d hd]
      | true =>
        simp only [if_true, reduceCtorEq, and_false, if_false, Option.isSome_some, Option.isSome_none,
          Bool.false_and, Bool.true_and, and_true, Bool.false_eq_true]
        split <;> rfl

theorem currentIs_elsewhere (h : Accepted f s input prepared c)
    (hkeys : ∀ id r, f id = some r → r.id = id) (a : Address) {id : Nat}
    (hid : c.actions.get id = none) :
    currentIs (after f prepared.batch) a id = currentIs f a id := by
  cases hlast : lastOf id prepared.changes.records with
  | none => exact currentIs_congr (h.untouched hkeys hlast).1
  | some r =>
    have hafter := h.touched hkeys hlast
    rw [h.lastOf_records hkeys, hid, Option.bind_none, Option.or_none] at hlast
    obtain ⟨hmem, hrid⟩ := lastOf_mem hlast
    obtain ⟨v, ordinal, rfl, hv⟩ := mem_valueRecords hmem
    have hvid : v.id = id := hrid
    have hnone := (h.value_apart hv).2
    rw [hvid] at hnone
    rw [currentIs_other fun d hd => by
      rw [hafter] at hd
      cases hd]
    rw [currentIs_other fun d hd => by
      unfold documentOf at hnone
      rw [hd] at hnone
      cases hnone]

theorem unique (h : Accepted f s input prepared c) (hkeys : ∀ id r, f id = some r → r.id = id)
    (hunique : Unique f) : Unique (after f prepared.batch) := by
  intro a d e hd he
  by_contra hne
  have hids : d.id ≠ e.id := by
    intro hid
    have hstored := hd.stored
    rw [hid, he.stored] at hstored
    cases hstored
    exact hne rfl
  obtain ⟨n, hn⟩ := exists_count f a
  have hcount := h.counts a n hn
  let keys : Finset Nat := (c.actions.entries.map Prod.fst).toFinset
  let S : Finset Nat := keys ∪ {d.id, e.id}
  let change : Nat → Int := fun id => currentIs (after f prepared.batch) a id - currentIs f a id
  have hlist : (c.actions.entries.map (effect f (s.seq + 1) a)).sum = ∑ id ∈ keys, change id := by
    rw [List.sum_toFinset _ c.actions.nodup, List.map_map]
    exact congrArg List.sum (List.map_congr_left fun e he => h.effect_eq hkeys a he)
  have hwhole : ∑ id ∈ keys, change id = ∑ id ∈ S, change id := by
    refine Finset.sum_subset Finset.subset_union_left fun id _ hid => ?_
    have hnone : c.actions.get id = none :=
      InsertionMap.get_eq_none.mpr fun hmem => hid (List.mem_toFinset.mpr hmem)
    exact Int.sub_eq_zero.mpr (h.currentIs_elsewhere hkeys a hnone)
  -- at most one document was current before
  have hbefore : ∑ id ∈ S, currentIs f a id ≤ n := by
    cases hn with
    | one hd0 =>
      rename_i d0
      refine (Finset.sum_le_sum (g := fun id => if id = d0.id then (1 : Int) else 0) fun id _ => ?_).trans ?_
      · unfold currentIs
        split
        · rename_i hex
          obtain ⟨d', hd', rfl⟩ := hex
          rw [hunique a d' d0 hd' hd0, if_pos rfl]
        · split <;> decide
      · rw [Finset.sum_ite_eq']
        split <;> decide
    | none hno =>
      refine le_of_eq (Finset.sum_eq_zero fun id _ => ?_)
      exact if_neg fun ⟨d', hd', _⟩ => hno d' hd'
  -- and two are current after
  have hafter : 2 ≤ ∑ id ∈ S, currentIs (after f prepared.batch) a id := by
    have hpair : ∑ id ∈ ({d.id, e.id} : Finset Nat), currentIs (after f prepared.batch) a id = 2 := by
      rw [Finset.sum_pair hids, currentIs_one hd, currentIs_one he]
      rfl
    rw [← hpair]
    refine Finset.sum_le_sum_of_subset_of_nonneg Finset.subset_union_right fun id _ _ => ?_
    unfold currentIs
    split <;> decide
  have hsplit : ∑ id ∈ S, change id =
      ∑ id ∈ S, currentIs (after f prepared.batch) a id - ∑ id ∈ S, currentIs f a id :=
    Finset.sum_sub_distrib ..
  rw [hlist, hwhole, hsplit] at hcount
  omega

end Accepted

/-! ## The condition -/

/-- The owner of the scope is created by the batch, or has been since the last flush. -/
def NewOwner (s : Store Op) (input : List (StorageWrite Op)) (scope : DocumentScope) : Prop :=
  ∃ owner, ownerOf scope = some owner ∧ s.coldNextId ≤ owner.1 ∧
    (some owner ∈ input.map StorageWrite.claim ∨
      (s.records.get owner.1).any (·.kind = owner.2) = true)

/-- Where the current document of an address is in the projection alone, the batch creates no document
there that it also retires, unless it retires the current one, and the owner of the address is none
that the storage takes for new. -/
structure Meets (f : Nat → Option IndexedRecord) (s : Store Op) (input : List (StorageWrite Op)) :
    Prop where
  settled : ∀ a d, Holds f a d → s.records.get d.id = none →
    ∀ record ∈ input.filterMap StorageWrite.created, documentAddress record = a →
      record.id ∈ input.filterMap StorageWrite.retired → d.id ∈ input.filterMap StorageWrite.retired
  owners : ∀ a d, Holds f a d → s.records.get d.id = none → NewOwner s input a.scope →
    (∀ record ∈ input.filterMap StorageWrite.created, documentAddress record ≠ a) ∧
      d.id ∉ input.filterMap StorageWrite.retired

variable {input : List (StorageWrite Op)}

theorem filterMap_resolved {γ : Type} (g : StorageWrite Op → Option γ) {writes : List (StorageWrite Op)}
    (h : List.Forall₂ StorageWrite.Resolves input writes)
    (hg : ∀ a b, StorageWrite.Resolves a b → g b = g a) : writes.filterMap g = input.filterMap g := by
  induction h with
  | nil => rfl
  | cons hab _ ih => rw [List.filterMap_cons, List.filterMap_cons, hg _ _ hab, ih]

theorem created_resolved {writes : List (StorageWrite Op)}
    (h : List.Forall₂ StorageWrite.Resolves input writes) :
    writes.filterMap StorageWrite.created = input.filterMap StorageWrite.created :=
  filterMap_resolved _ h fun _ _ hab => hab.created

theorem retired_resolved {writes : List (StorageWrite Op)}
    (h : List.Forall₂ StorageWrite.Resolves input writes) :
    writes.filterMap StorageWrite.retired = input.filterMap StorageWrite.retired :=
  filterMap_resolved _ h fun _ _ hab => hab.retired

theorem holds_documentOf (hkeys : ∀ id r, f id = some r → r.id = id) {id : Nat} {d : Document}
    (hd : documentOf f id = some d) : d.id = id ∧ f id = some (.document d) := by
  obtain ⟨r, hr, hrd⟩ := Option.bind_eq_some_iff.mp hd
  cases r with
  | value => cases hrd
  | document =>
    cases hrd
    exact ⟨hkeys id _ hr, hr⟩

theorem Meets.allOwners (hmeets : Meets f s input) (hknows : Knows w f s)
    {writes : List (StorageWrite Op)} {c : Claims Op}
    (hresolved : List.Forall₂ StorageWrite.Resolves input writes)
    (hclaimed : Claimed f s.nextId writes c) (hgathered : Gathered writes c.actions) :
    AllOwnersKnown f s c := by
  rintro ⟨id, action⟩ he hunretired record hrecord hbusy hnew d hd hhidden
  have hget := InsertionMap.mem_entries.mp he
  have hnew' : NewOwner s input (documentAddress record.toDocumentCreate).scope := by
    unfold isNewOwner at hnew
    obtain ⟨owner, howner, hnew⟩ := (Option.any_eq_true _ _).mp hnew
    rw [Bool.and_eq_true, decide_eq_true_eq, Bool.or_eq_true, decide_eq_true_eq] at hnew
    refine ⟨owner, howner, hnew.1, hnew.2.imp_left fun hclaim => ?_⟩
    obtain ⟨write, hwrite, hclaim⟩ := hclaimed.claims _ _ hclaim
    obtain ⟨source, hsource, hr⟩ := exists_of_mem_right hresolved hwrite
    exact List.mem_map.mpr ⟨source, hsource, hr.claim.symm.trans hclaim⟩
  obtain ⟨hcreated, hretired⟩ := hmeets.owners _ d hd hhidden hnew'
  have hcreate := hgathered.create id
  have hretire := hgathered.retire id
  rw [hget, Option.getD_some, created_resolved hresolved] at hcreate
  rw [hget, Option.getD_some, retired_resolved hresolved] at hretire
  unfold recordAfter at hrecord
  cases hc : action.create with
  | some create =>
    obtain ⟨hmem, -⟩ := (hcreate create).mp hc
    rw [show (id, action).2.create = some create from hc] at hrecord
    refine hcreated create hmem ?_
    cases hrecord
    dsimp only
    split <;> rfl
  | none =>
    rw [show (id, action).2.create = none from hc] at hrecord
    have hret : action.retire = true := hbusy.resolve_left fun hsome => by
      rw [show (id, action).2.create = none from hc] at hsome
      cases hsome
    obtain ⟨e, hedoc, hrec⟩ := Option.map_eq_some_iff.mp hrecord
    obtain ⟨heid, hestored⟩ := holds_documentOf hknows.keys hedoc
    have heheld : Holds f (documentAddress record.toDocumentCreate) e := by
      refine ⟨heid.symm ▸ hestored, ?_, hunretired e hedoc⟩
      rw [← hrec]
      split <;> rfl
    have hsame := hknows.unique _ d e hd heheld
    refine hretired ?_
    rw [hsame, heid]
    exact hretire.mp hret

theorem Accepted.mem_records {prepared : Prepared Op} {c : Claims Op}
    (h : Accepted f s input prepared c) (hkeys : ∀ id r, f id = some r → r.id = id) {d : Document}
    (hd : .document d ∈ prepared.changes.records) :
    ∃ action, c.actions.get d.id = some action ∧
      recordAfter (s.seq + 1) (documentOf f d.id) action = some d ∧
      (action.create.isSome = true ∨ action.retire = true) := by
  rw [h.records] at hd
  obtain hd | hd := List.mem_append.mp hd
  · obtain ⟨⟨id, action⟩, he, hr⟩ := List.mem_filterMap.mp hd
    have hget := InsertionMap.mem_entries.mp he
    unfold recordFor at hr
    split at hr
    · rename_i hbusy
      obtain ⟨record, hrecord, heq⟩ := Option.map_eq_some_iff.mp hr
      cases heq
      have hid := h.recordAfter_id hkeys hget hrecord
      rw [Bool.or_eq_true] at hbusy
      exact ⟨action, hid.symm ▸ hget, hid.symm ▸ hrecord, hbusy⟩
    · cases hr
  · obtain ⟨v, ordinal, heq, -⟩ := mem_valueRecords hd
    cases heq

theorem recordAfter_none {seq : Nat} {existing : Option Document} {action : DocumentAction Op}
    {record : Document} (hc : action.create = none)
    (hrecord : recordAfter seq existing action = some record) :
    ∃ d, existing = some d ∧
      documentAddress record.toDocumentCreate = documentAddress d.toDocumentCreate := by
  unfold recordAfter at hrecord
  rw [hc] at hrecord
  obtain ⟨d, hd, rfl⟩ := Option.map_eq_some_iff.mp hrecord
  refine ⟨d, hd, ?_⟩
  split <;> rfl

/-! ## The adoption -/

theorem get_deleteAll (records : List IndexedRecord) (m : InsertionMap Nat (Option IndexedRecord))
    {id : Nat} {found : Option IndexedRecord}
    (h : (records.foldl (fun m r => m.delete r.id) m).get id = some found) : m.get id = some found := by
  induction records generalizing m with
  | nil => exact h
  | cons r records ih => exact InsertionMap.get_delete_some (ih _ h)

theorem get_refreshed (as : List Address) (s : Store Op) {a : Address} {found : Option Document}
    (h : (as.foldl Store.refreshAddress s).addresses.get a = some found) :
    (a ∈ as ∧ found = s.currentAt a) ∨ (a ∉ as ∧ s.addresses.get a = some found) := by
  induction as generalizing s with
  | nil => exact .inr ⟨List.not_mem_nil, h⟩
  | cons b as ih =>
    obtain ⟨hmem, hfound⟩ | ⟨hmem, hget⟩ := ih _ h
    · exact .inl ⟨List.mem_cons_of_mem b hmem, hfound⟩
    · unfold Store.refreshAddress at hget
      dsimp only at hget
      rw [InsertionMap.get_set] at hget
      split at hget
      · rename_i hab
        cases hget
        exact .inl ⟨hab ▸ List.mem_cons_self, by rw [hab]⟩
      · rename_i hab
        refine .inr ⟨fun hin => ?_, ?_⟩
        · obtain rfl | hin := List.mem_cons.mp hin
          · exact hab rfl
          · exact hmem hin
        · split at hget
          · exact hget
          · exact get_bounded_some hget

theorem refreshed_fields (as : List Address) (s : Store Op) :
    { as.foldl Store.refreshAddress s with addresses := {} } = { s with addresses := {} } := by
  induction as generalizing s with
  | nil => rfl
  | cons b as ih => exact ih _

theorem adopt_fields (s : Store Op) (prepared : Prepared Op) (bytes minted : Nat) :
    { s.adopt prepared bytes minted with addresses := {} } =
      { s.put prepared bytes minted with addresses := {} } :=
  refreshed_fields _ _

theorem adopt_records (s : Store Op) (prepared : Prepared Op) (bytes minted : Nat) :
    (s.adopt prepared bytes minted).records = putAll s.records prepared.changes.records :=
  congrArg Store.records (adopt_fields s prepared bytes minted)

theorem adopt_seq (s : Store Op) (prepared : Prepared Op) (bytes minted : Nat) :
    (s.adopt prepared bytes minted).seq = prepared.batch.seq :=
  congrArg Store.seq (adopt_fields s prepared bytes minted)

theorem adopt_nextId (s : Store Op) (prepared : Prepared Op) (bytes minted : Nat) :
    (s.adopt prepared bytes minted).nextId = max (s.nextId + minted) prepared.batch.nextId :=
  congrArg Store.nextId (adopt_fields s prepared bytes minted)

theorem adopt_coldSeq (s : Store Op) (prepared : Prepared Op) (bytes minted : Nat) :
    (s.adopt prepared bytes minted).coldSeq = s.coldSeq :=
  (congrArg Store.coldSeq (adopt_fields s prepared bytes minted)).trans rfl

theorem mem_changedAddresses {records : List IndexedRecord} {a : Address} :
    a ∈ Store.changedAddresses records ↔
      ∃ d, .document d ∈ records ∧ documentAddress d.toDocumentCreate = a := by
  unfold Store.changedAddresses
  rw [List.mem_filterMap]
  constructor
  · rintro ⟨r, hr, hra⟩
    cases r with
    | value => cases hra
    | document d => exact ⟨d, hr, Option.some.inj hra⟩
  · rintro ⟨d, hd, rfl⟩
    exact ⟨.document d, hd, rfl⟩

variable {prepared : Prepared Op} {c : Claims Op}

theorem adopt_knows {s' : Store Op} (hstill : Still w f s s') (h : Accepted f s input prepared c)
    (hmeets : Meets f s input) (bytes minted : Nat) {w' : World Op}
    (hrowKeys : ∀ q db id r, w' q = some db → db.rows.get id = some r → r.id = id)
    (hrows : ∀ q db id, w' q = some db → (s'.adopt prepared bytes minted).records.get id = none →
      db.rows.get id = after f prepared.batch id) :
    Knows w' (after f prepared.batch) (s'.adopt prepared bytes minted) := by
  have hkeys := hstill.knows.keys
  have hunique := h.unique hkeys hstill.knows.unique
  -- the storage before its addresses are refreshed
  obtain ⟨base, hbase⟩ : ∃ base, base = s'.put prepared bytes minted := ⟨_, rfl⟩
  have hrecords : base.records = putAll s'.records prepared.changes.records := by rw [hbase]; rfl
  have hcoldSeq : base.coldSeq = s'.coldSeq := by rw [hbase]; rfl
  have hcoldNextId : base.coldNextId = s'.coldNextId := by rw [hbase]; rfl
  have haddresses : base.addresses = s'.addresses := by rw [hbase]; rfl
  have hreadCache : base.readCache =
      prepared.changes.records.foldl (fun m r => m.delete r.id) s'.readCache := by rw [hbase]; rfl
  have hadopt : s'.adopt prepared bytes minted =
      (Store.changedAddresses prepared.changes.records).eraseDups.foldl Store.refreshAddress base := by
    rw [hbase]
    rfl
  have hsame : { s'.adopt prepared bytes minted with addresses := {} } = { base with addresses := {} } := by
    rw [hbase]
    exact adopt_fields s' prepared bytes minted
  have hget : ∀ id, (putAll s'.records prepared.changes.records).get id =
      (lastOf id prepared.changes.records).or (s'.records.get id) := get_putAll _ _
  have hheld : s'.held.records = s.held.records := by rw [hstill.held]
  have hs' : s'.records = s.records := hheld
  have hoverlay : ∀ id r, (putAll s'.records prepared.changes.records).get id = some r →
      after f prepared.batch id = some r := by
    intro id r hr
    rw [hget] at hr
    cases hlast : lastOf id prepared.changes.records with
    | some r' =>
      rw [hlast, Option.some_or] at hr
      cases hr
      exact h.touched hkeys hlast
    | none =>
      rw [hlast, Option.none_or] at hr
      rw [(h.untouched hkeys hlast).1]
      exact hstill.knows.overlay id r hr
  have hnone : ∀ id, (putAll s'.records prepared.changes.records).get id = none →
      lastOf id prepared.changes.records = none ∧ s'.records.get id = none := by
    intro id hid
    rw [hget, Option.or_eq_none_iff] at hid
    exact hid
  have hcacheless : Knows w' (after f prepared.batch) { s'.adopt prepared bytes minted with addresses := {} } := by
    refine ⟨fun id r hr => Accepted.after_keys hkeys _ hr, hunique, ?_, ?_, hrowKeys, hrows, ?_, ?_⟩
    · intro id r hr
      rw [hsame] at hr
      exact hoverlay id r (hrecords ▸ hr)
    · intro id hid hcold
      rw [hsame] at hid hcold
      obtain ⟨hlast, hold⟩ := hnone id (hrecords ▸ hid)
      rw [(h.untouched hkeys hlast).1]
      exact hstill.knows.absent id hold (hcoldSeq ▸ hcoldNextId ▸ hcold)
    · intro id found hid hcache
      rw [hsame] at hid hcache
      obtain ⟨hlast, hold⟩ := hnone id (hrecords ▸ hid)
      rw [(h.untouched hkeys hlast).1]
      exact hstill.knows.readCache id found hold (get_deleteAll _ _ (hreadCache ▸ hcache))
    · intro a found hcache
      cases hcache
  have hbaseKnows : Knows w' (after f prepared.batch) { base with addresses := {} } := hsame ▸ hcacheless
  refine { hcacheless with addresses := fun a found hcache => ?_ }
  rw [hadopt] at hcache
  obtain ⟨hmem, rfl⟩ | ⟨hmem, hold⟩ := get_refreshed _ _ hcache
  · rw [List.mem_eraseDups, mem_changedAddresses] at hmem
    obtain ⟨d1, hd1, ha⟩ := hmem
    intro d
    constructor
    · exact fun hcurrent => hbaseKnows.currentAt_some hcurrent
    · intro hd
      cases hcurrent : base.currentAt a with
      | some e => rw [hunique a e d (hbaseKnows.currentAt_some hcurrent) hd]
      | none =>
        -- the current document is then in the projection alone, and was current before
        have hhidden : base.records.get d.id = none := hbaseKnows.currentAt_none hcurrent hd
        obtain ⟨hlast, hgone⟩ := hnone d.id (hrecords ▸ hhidden)
        obtain ⟨hafter, hretired, -⟩ := h.untouched hkeys hlast
        have hbefore : Holds f a d := ⟨hafter ▸ hd.stored, hd.address, hd.unretired⟩
        have hother : d1.id ≠ d.id := fun hid => lastOf_eq_none.mp hlast _ hd1 hid
        obtain ⟨action, haction, hrecord, hbusy⟩ := h.mem_records hkeys hd1
        obtain ⟨hcreate, hretire⟩ := h.action_of_get haction
        cases hc : action.create with
        | some create =>
          obtain ⟨hin, hcid⟩ := (hcreate create).mp hc
          have hform : documentAddress d1.toDocumentCreate = documentAddress create ∧
              (action.retire = false → d1.retiredAt = none) := by
            unfold recordAfter at hrecord
            rw [hc] at hrecord
            cases hrecord
            cases action.retire
            · exact ⟨rfl, fun _ => rfl⟩
            · exact ⟨rfl, nofun⟩
          cases hr : action.retire with
          | false =>
            have hnew : Holds (after f prepared.batch) a d1 :=
              ⟨h.recordFor_after hkeys haction hrecord, ha, hform.2 hr⟩
            exact absurd (congrArg (fun d : Document => d.id) (hunique a d1 d hnew hd)) hother
          | true =>
            have hin' : create ∈ input.filterMap StorageWrite.created := by
              rwa [← created_resolved h.resolved]
            have hret : create.id ∈ input.filterMap StorageWrite.retired := by
              rw [← retired_resolved h.resolved, hcid]
              exact hretire.mp hr
            have hgoes := hmeets.settled a d hbefore (hs' ▸ hgone) create hin' (hform.1.symm.trans ha) hret
            rw [← retired_resolved h.resolved] at hgoes
            exact absurd hgoes hretired
        | none =>
          obtain ⟨e, he, hea⟩ := recordAfter_none hc hrecord
          obtain ⟨heid, hestored⟩ := holds_documentOf hkeys he
          have hunretired := h.unretired _ (InsertionMap.mem_entries.mpr haction) e he
          have heheld : Holds f a e := ⟨heid.symm ▸ hestored, hea.symm.trans ha, hunretired⟩
          rw [hstill.knows.unique a e d heheld hbefore] at heid
          exact absurd heid.symm hother
  · rw [List.mem_eraseDups, mem_changedAddresses] at hmem
    have hcurrent := hstill.knows.addresses a found (haddresses ▸ hold)
    intro d
    rw [hcurrent d]
    constructor
    · intro hd
      cases hlast : lastOf d.id prepared.changes.records with
      | none => exact ⟨(h.untouched hkeys hlast).1.trans hd.stored, hd.address, hd.unretired⟩
      | some r =>
        have hafter := h.touched hkeys hlast
        obtain ⟨r', hr', hkind⟩ := h.kind_kept hkeys hd.stored
        rw [hafter] at hr'
        cases hr'
        obtain ⟨hin, hrid⟩ := lastOf_mem hlast
        cases r with
        | value => cases hkind
        | document d1 =>
          have hd1 : d1.id = d.id := hrid
          obtain ⟨action, haction, hrecord, hbusy⟩ := h.mem_records hkeys hin
          refine absurd ⟨d1, hin, ?_⟩ hmem
          cases hc : action.create with
          | some create =>
            obtain ⟨hcreated, hcid⟩ := ((h.action_of_get haction).1 create).mp hc
            have hfree := h.create_free hcreated
            rw [hcid, hd1, hd.stored] at hfree
            cases hfree
          | none =>
            obtain ⟨e, he, hea⟩ := recordAfter_none hc hrecord
            obtain ⟨-, hestored⟩ := holds_documentOf hkeys he
            rw [hd1, hd.stored] at hestored
            cases hestored
            exact hea.trans hd.address
    · intro hd
      cases hlast : lastOf d.id prepared.changes.records with
      | none => exact ⟨(h.untouched hkeys hlast).1 ▸ hd.stored, hd.address, hd.unretired⟩
      | some r =>
        have hafter := h.touched hkeys hlast
        rw [hd.stored] at hafter
        cases hafter
        exact absurd ⟨d, (lastOf_mem hlast).1, hd.address⟩ hmem

end Adoption

end Overlay
end Durable
end PiCloud
