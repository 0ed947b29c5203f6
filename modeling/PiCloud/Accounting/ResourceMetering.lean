import PiCloud.Accounting.ResourcePricing
import PiCloud.Lib.Run
import PiCloud.Lib.Table

/-!
# Accounting.ResourceMetering

`ResourceMeteringService`: batches of usage receipts are taken in, each receipt once, and priced by
the rates that the database has at that time.

* `Database`, `ingest`, `createRate`: the tables, and the transactions on them.
* `candidates`, `ratesOf`: the rates that `ingest` reads, and all those of a tenant for a resource kind.
* `Sound`: what holds of the tables in every reached state.
* `resource_valuation`: the valuation of a receipt, the confirmed intervals, and a batch that comes
  again.
-/

namespace PiCloud
namespace Accounting

open Lib

/-- `resource_kind:resource_id` -/
abbrev ResourceKey := ResourceKind × String

def ResourceIdentity.key (r : ResourceIdentity) : ResourceKey := (r.kind, r.resourceId)

structure ResourceRow (H : Type) where
  context : ResourceIdentity
  contextHash : H

structure EventRow (H : Type) where
  resourceKey : ResourceKey
  fromAt : Int
  toAt : Int
  quality : Quality
  payload : ResourceMeteringEvent
  payloadHash : H
  valuation : List ResourceValuation

/-- The columns `kind`, `resource_kind` and `effective_at` are those of the definition. -/
structure RateRow where
  id : String
  tenantId : String
  definition : ResourceRateInput

structure RateKey where
  tenantId : String
  kind : RateKind
  resourceKind : ResourceKind
  effectiveAt : Int
deriving DecidableEq

def rateKey (tenantId : String) (definition : ResourceRateInput) : RateKey :=
  ⟨tenantId, definition.kind, definition.resourceKind, definition.effectiveAt⟩

def RateRow.key (row : RateRow) : RateKey := rateKey row.tenantId row.definition

def RateRow.rate (row : RateRow) : ResourceRate := { row.definition with id := row.id }

/-- The tables; a rate is found by what is unique of it. -/
structure Database (H : Type) where
  resources : Table ResourceKey (ResourceRow H) := .empty
  events : Table String (EventRow H) := .empty
  rates : Table RateKey RateRow := .empty

inductive MeteringError where
  /-- `TypeError`: the batch, the receipt or the rate is not one. -/
  | invalid
  /-- `MeteringConflict` -/
  | conflict
deriving DecidableEq

/-- What `receiptHash` is taken of. -/
inductive Hashed where
  | resource (resource : ResourceIdentity)
  | event (event : ResourceMeteringEvent)
  | rate (definition : ResourceRateInput)
deriving DecidableEq

/-! ## The service -/

/-- The checks of `parseResourceMeteringBatch` past the schema. -/
def ResourceMeteringEvent.valid (event : ResourceMeteringEvent) : Bool :=
  event.fromAt ≤ event.toAt && event.resource.kind = event.quantity.kind &&
    ((event.quality = .unconfirmed) == (event.reason ≠ none))

/-- `&&` of two ranges `[from,to)` -/
def overlap (a b : Int × Int) : Bool := max a.1 b.1 < min a.2 b.2

def ratesOf (rates : List RateRow) (resource : ResourceIdentity) : List ResourceRate :=
  (rates.filter fun r => r.tenantId = resource.tenantId ∧ r.definition.resourceKind = resource.kind).map
    RateRow.rate

/-- The rates that `ingest` reads: of each kind the one at the start, and those within the interval. -/
def candidates (rates : List RateRow) (event : ResourceMeteringEvent) : List ResourceRate :=
  let own := ratesOf rates event.resource
  (select own .customer event.fromAt).toList ++ (select own .upstreamEstimate event.fromAt).toList ++
    own.filter fun r => event.fromAt < r.effectiveAt ∧ r.effectiveAt < event.toAt

/-- `kind:resourceId` -/
def ResourceIdentity.text (r : ResourceIdentity) : String :=
  match r.kind with
  | .compute => "compute:" ++ r.resourceId
  | .workspace => "workspace:" ++ r.resourceId

/-- All batches go through the resources in one order, and through the receipts of each by time. -/
def admissionOrder (localeCompare : String → String → Int) (events : List ResourceMeteringEvent) :
    List ResourceMeteringEvent :=
  events.insertionSort fun a b =>
    if localeCompare a.resource.text b.resource.text ≠ 0 then
      localeCompare a.resource.text b.resource.text ≤ 0
    else if a.fromAt ≠ b.fromAt then a.fromAt ≤ b.fromAt
    else localeCompare a.eventId b.eventId ≤ 0

section Service

variable {H : Type} [DecidableEq H] (receiptHash : Hashed → H)

/-- One receipt of a batch. -/
def admitEvent (db : Database H) (event : ResourceMeteringEvent) : Except MeteringError (Database H) :=
  let resource := event.resource
  let key := resource.key
  let contextHash := receiptHash (.resource resource)
  let resources := match db.resources.get key with
    | some _ => db.resources
    | none => db.resources.set key ⟨resource, contextHash⟩
  if (resources.get key).any fun owner : ResourceRow H => owner.contextHash ≠ contextHash then .error .conflict
  else
    let db := { db with resources := resources }
    let payloadHash := receiptHash (.event event)
    match db.events.get event.eventId with
    | some previous => if previous.payloadHash ≠ payloadHash then .error .conflict else .ok db
    | none =>
      if event.quality = Quality.confirmed && event.fromAt ≠ event.toAt &&
          db.events.scan.any fun row : EventRow H => row.resourceKey = key && row.quality = Quality.confirmed &&
            overlap (row.fromAt, row.toAt) (event.fromAt, event.toAt) then
        .error .conflict
      else
        let rates := if event.quality = .confirmed then candidates db.rates.scan event else []
        .ok { db with
          events := db.events.set event.eventId
            { resourceKey := key
              fromAt := event.fromAt
              toAt := event.toAt
              quality := event.quality
              payload := event
              payloadHash := payloadHash
              valuation := valueResourceReceipt event rates } }

/-- The transaction of a batch, with the number of its receipts. -/
def ingest (localeCompare : String → String → Int) (db : Database H)
    (events : List ResourceMeteringEvent) : Except MeteringError (Nat × Database H) :=
  if events.length < 1 ∨ 128 < events.length ∨ !events.all ResourceMeteringEvent.valid then
    .error .invalid
  else
    ((admissionOrder localeCompare events).foldlM (admitEvent receiptHash) db).map (events.length, ·)

/-- `now` is the time of the database, `id` a random uuid. -/
def createRate (db : Database H) (tenantId : String) (definition : ResourceRateInput) (now : Int)
    (id : String) : Except MeteringError (ResourceRate × Database H) :=
  match db.rates.get (rateKey tenantId definition) with
  | some row =>
    if receiptHash (.rate row.definition) ≠ receiptHash (.rate definition) then .error .conflict
    else .ok ({ definition with id := row.id }, db)
  | none =>
    if definition.effectiveAt < now then .error .invalid
    else
      .ok ({ definition with id := id },
        { db with rates := db.rates.set (rateKey tenantId definition) ⟨id, tenantId, definition⟩ })

inductive MeteringAction where
  | ingest (events : List ResourceMeteringEvent)
  | createRate (tenantId : String) (definition : ResourceRateInput) (now : Int) (id : String)

/-- A transaction that throws leaves the tables as they are. -/
def meter (localeCompare : String → String → Int) (db : Database H) : MeteringAction → Database H
  | .ingest events =>
    match ingest receiptHash localeCompare db events with
    | .ok (_, t) => t
    | .error _ => db
  | .createRate tenantId definition now id =>
    match createRate receiptHash db tenantId definition now id with
    | .ok (_, t) => t
    | .error _ => db

def metering (localeCompare : String → String → Int) : System (Database H) MeteringAction where
  init db := db = {}
  step db a t := t = meter receiptHash localeCompare db a

end Service

/-! ## The tables -/

variable {H : Type}

/-- The confirmed rows of one resource, under different ids, do not overlap. -/
def Disjoint (db : Database H) : Prop :=
  ∀ i j a b, db.events.get i = some a → db.events.get j = some b → i ≠ j →
    a.resourceKey = b.resourceKey → a.quality = .confirmed → b.quality = .confirmed →
    overlap (a.fromAt, a.toAt) (b.fromAt, b.toAt) = false

structure Sound (db : Database H) : Prop where
  keyed : ∀ k row, db.rates.get k = some row → row.key = k
  disjoint : Disjoint db

/-- No row is changed or deleted. -/
structure Grows (db t : Database H) : Prop where
  resources : ∀ {k row}, db.resources.get k = some row → t.resources.get k = some row
  events : ∀ {k row}, db.events.get k = some row → t.events.get k = some row

theorem Grows.refl (db : Database H) : Grows db db := ⟨id, id⟩

theorem Grows.trans {db t u : Database H} (h : Grows db t) (h' : Grows t u) : Grows db u :=
  ⟨fun hr => h'.resources (h.resources hr), fun hr => h'.events (h.events hr)⟩

theorem overlap_comm (a b : Int × Int) : overlap a b = overlap b a := by
  unfold overlap
  rw [max_comm, min_comm]

theorem overlap_empty (a : Int × Int) (x : Int) : overlap a (x, x) = false := by
  unfold overlap
  refine decide_eq_false (not_lt.mpr ?_)
  exact (min_le_right _ _).trans (le_max_right _ _)

variable {receiptHash : Hashed → H} {db t : Database H}

/-- The receipt is in the tables, as is its resource. -/
structure Holds (receiptHash : Hashed → H) (db : Database H) (event : ResourceMeteringEvent) : Prop where
  resource : ∃ row, db.resources.get event.resource.key = some row ∧
    row.contextHash = receiptHash (.resource event.resource)
  event : ∃ row, db.events.get event.eventId = some row ∧ row.payloadHash = receiptHash (.event event)

theorem Holds.grows {event : ResourceMeteringEvent} (h : Holds receiptHash db event) (ht : Grows db t) :
    Holds receiptHash t event := by
  obtain ⟨⟨r, hr, hrh⟩, ⟨e, he, heh⟩⟩ := h
  exact ⟨⟨r, ht.resources hr, hrh⟩, ⟨e, ht.events he, heh⟩⟩

theorem Sound.insert (h : Sound db) {id : String} {row : EventRow H}
    (hrow : row.quality = .confirmed → row.fromAt ≠ row.toAt → ∀ j b, db.events.get j = some b →
      b.resourceKey = row.resourceKey → b.quality = .confirmed →
      overlap (b.fromAt, b.toAt) (row.fromAt, row.toAt) = false) :
    Sound { db with events := db.events.set id row } := by
  refine ⟨h.keyed, ?_⟩
  have hnew : ∀ j b, db.events.get j = some b → b.resourceKey = row.resourceKey →
      row.quality = .confirmed → b.quality = .confirmed →
      overlap (b.fromAt, b.toAt) (row.fromAt, row.toAt) = false := by
    intro j b hb hkey hquality hbquality
    by_cases hlength : row.fromAt = row.toAt
    · rw [hlength]
      exact overlap_empty _ _
    · exact hrow hquality hlength j b hb hkey hbquality
  intro i j a b ha hb hij hkey haq hbq
  dsimp only at ha hb
  rw [Table.get_set] at ha hb
  split at ha
  · rename_i hi
    cases ha
    rw [if_neg fun hj => hij (hi.trans hj.symm)] at hb
    rw [overlap_comm]
    exact hnew j b hb hkey.symm haq hbq
  · split at hb
    · cases hb
      exact hnew i a ha hkey hbq haq
    · exact h.disjoint i j a b ha hb hij hkey haq hbq

section Service

variable [DecidableEq H]

theorem Holds.admitEvent {event : ResourceMeteringEvent} (h : Holds receiptHash db event) :
    admitEvent receiptHash db event = .ok db := by
  obtain ⟨⟨r, hr, hrh⟩, ⟨e, he, heh⟩⟩ := h
  unfold Accounting.admitEvent
  simp [hr, hrh, he, heh]

theorem admitEvent_spec {event : ResourceMeteringEvent} (h : Sound db)
    (hok : admitEvent receiptHash db event = .ok t) :
    Sound t ∧ Grows db t ∧ Holds receiptHash t event := by
  unfold Accounting.admitEvent at hok
  extract_lets resource key contextHash resources base payloadHash at hok
  have hgrows : ∀ {k row}, db.resources.get k = some row → resources.get k = some row := by
    intro k row hrow
    show (match db.resources.get key with
      | some _ => db.resources
      | none => db.resources.set key ⟨resource, contextHash⟩).get k = some row
    split
    · exact hrow
    · rename_i hnone
      rw [Table.get_set, if_neg]
      · exact hrow
      · rintro rfl
        rw [hnone] at hrow
        cases hrow
  have hsome : ∃ row, resources.get key = some row := by
    show ∃ row, (match db.resources.get key with
      | some _ => db.resources
      | none => db.resources.set key ⟨resource, contextHash⟩).get key = some row
    split
    · exact ⟨_, ‹_›⟩
    · exact ⟨_, Table.get_set_self _ _ _⟩
  obtain ⟨owner, howner⟩ := hsome
  split at hok
  · cases hok
  · rename_i hhash
    have hcontext : owner.contextHash = contextHash := by
      rw [howner] at hhash
      simpa using hhash
    split at hok
    · rename_i previous hprevious
      split at hok
      · cases hok
      · rename_i hpayload
        rw [← Except.ok.inj hok]
        exact ⟨⟨h.keyed, h.disjoint⟩, ⟨hgrows, id⟩, ⟨owner, howner, hcontext⟩,
          ⟨previous, hprevious, not_not.mp hpayload⟩⟩
    · rename_i hnone
      split at hok
      · cases hok
      · rename_i hoverlap
        rw [← Except.ok.inj hok]
        have hbase : Sound base := ⟨h.keyed, h.disjoint⟩
        refine ⟨hbase.insert fun hquality hlength j b hb hkey hbq => ?_, ⟨hgrows, fun {k row} hrow => ?_⟩,
          ⟨owner, howner, hcontext⟩, ⟨_, Table.get_set_self _ _ _, rfl⟩⟩
        · by_contra hover
          refine hoverlap ?_
          simp only [Bool.and_eq_true, decide_eq_true_eq, List.any_eq_true]
          exact ⟨⟨hquality, hlength⟩, b, Table.mem_scan.mpr ⟨j, hb⟩, ⟨hkey, hbq⟩, by simpa using hover⟩
        · dsimp only
          rw [Table.get_set, if_neg]
          · exact hrow
          · rintro rfl
            rw [show base.events.get event.eventId = db.events.get event.eventId from rfl] at hnone
            rw [hnone] at hrow
            cases hrow

theorem admitEvents_spec {events : List ResourceMeteringEvent} (h : Sound db)
    (hok : events.foldlM (admitEvent receiptHash) db = .ok t) :
    Sound t ∧ Grows db t ∧ ∀ event ∈ events, Holds receiptHash t event := by
  induction events generalizing db with
  | nil =>
    cases hok
    exact ⟨h, .refl _, nofun⟩
  | cons event events ih =>
    rw [List.foldlM_cons] at hok
    cases hone : admitEvent receiptHash db event with
    | error e =>
      rw [hone] at hok
      cases hok
    | ok u =>
      rw [hone] at hok
      obtain ⟨hu, hgrows, hholds⟩ := admitEvent_spec h hone
      obtain ⟨ht, hrest, hall⟩ := ih hu hok
      refine ⟨ht, hgrows.trans hrest, fun e he => ?_⟩
      obtain rfl | he := List.mem_cons.mp he
      · exact hholds.grows hrest
      · exact hall e he

theorem admitEvents_again {events : List ResourceMeteringEvent}
    (h : ∀ event ∈ events, Holds receiptHash db event) :
    events.foldlM (admitEvent receiptHash) db = .ok db := by
  induction events with
  | nil => rfl
  | cons event events ih =>
    rw [List.foldlM_cons, (h event List.mem_cons_self).admitEvent]
    exact ih fun e he => h e (List.mem_cons_of_mem _ he)

end Service

/-! ## The rates that are read -/

theorem mem_ratesOf {rates : List RateRow} {resource : ResourceIdentity} {r : ResourceRate} :
    r ∈ ratesOf rates resource ↔ ∃ row ∈ rates, row.tenantId = resource.tenantId ∧
      row.definition.resourceKind = resource.kind ∧ row.rate = r := by
  unfold ratesOf
  rw [List.mem_map]
  constructor
  · rintro ⟨row, hrow, rfl⟩
    rw [List.mem_filter, decide_eq_true_iff] at hrow
    exact ⟨row, hrow.1, hrow.2.1, hrow.2.2, rfl⟩
  · rintro ⟨row, hrow, htenant, hkind, rfl⟩
    exact ⟨row, List.mem_filter.mpr ⟨hrow, decide_eq_true ⟨htenant, hkind⟩⟩, rfl⟩

theorem Sound.unambiguous (h : Sound db) (resource : ResourceIdentity) :
    Unambiguous (ratesOf db.rates.scan resource) := by
  intro r hr q hq hkind htime
  obtain ⟨a, ha, hat, hak, rfl⟩ := mem_ratesOf.mp hr
  obtain ⟨b, hb, hbt, hbk, rfl⟩ := mem_ratesOf.mp hq
  have hkey : a.key = b.key := by
    unfold RateRow.key rateKey
    rw [hat, hbt, hak, hbk]
    exact congrArg₂ (fun k t => RateKey.mk resource.tenantId k resource.kind t) hkind htime
  obtain ⟨i, hi⟩ := Table.mem_scan.mp ha
  obtain ⟨j, hj⟩ := Table.mem_scan.mp hb
  have hij : i = j := (h.keyed i a hi).symm.trans (hkey.trans (h.keyed j b hj))
  rw [hij, hj] at hi
  cases hi
  rfl

theorem mem_candidates {rates : List RateRow} {event : ResourceMeteringEvent} {r : ResourceRate} :
    r ∈ candidates rates event ↔
      (∃ kind, select (ratesOf rates event.resource) kind event.fromAt = some r) ∨
        r ∈ ratesOf rates event.resource ∧ event.fromAt < r.effectiveAt ∧ r.effectiveAt < event.toAt := by
  unfold candidates
  dsimp only
  rw [List.mem_append, List.mem_append, List.mem_filter, decide_eq_true_iff, Option.mem_toList,
    Option.mem_toList]
  constructor
  · rintro ((h | h) | h)
    · exact .inl ⟨_, h⟩
    · exact .inl ⟨_, h⟩
    · exact .inr h
  · rintro (⟨kind, h⟩ | h)
    · cases kind with
      | customer => exact .inl (.inl h)
      | upstreamEstimate => exact .inl (.inr h)
    · exact .inr h

theorem Sound.candidates_value (h : Sound db) {event : ResourceMeteringEvent}
    (hle : event.fromAt ≤ event.toAt) {rows : List ResourceRate}
    (hrows : rows.Perm (candidates db.rates.scan event)) :
    valueResourceReceipt event rows =
      valueResourceReceipt event (ratesOf db.rates.scan event.resource) := by
  have hmem : ∀ r, r ∈ rows ↔
      (∃ kind, select (ratesOf db.rates.scan event.resource) kind event.fromAt = some r) ∨
        r ∈ ratesOf db.rates.scan event.resource ∧
          event.fromAt < r.effectiveAt ∧ r.effectiveAt < event.toAt :=
    fun r => hrows.mem_iff.trans mem_candidates
  have hsub : ∀ r ∈ rows, r ∈ ratesOf db.rates.scan event.resource := by
    intro r hr
    obtain ⟨kind, hkind⟩ | hin := (hmem r).mp hr
    · exact (mem_select hkind).1
    · exact hin.1
  refine valuation_congr hle (fun t hfrom hto => ?_) fun kind t ht htail => ?_
  · rw [List.mem_map, List.mem_map]
    constructor
    · rintro ⟨r, hr, rfl⟩
      exact ⟨r, hsub r hr, rfl⟩
    · rintro ⟨r, hr, rfl⟩
      exact ⟨r, (hmem r).mpr (.inr ⟨hr, hfrom, hto⟩), rfl⟩
  · refine select_fewer (h.unambiguous event.resource) hsub fun r hr hkind hrt => ?_
    by_cases hfrom : event.fromAt < r.effectiveAt
    · have hlt : t < event.toAt := htail.resolve_left fun heq => absurd hfrom (not_lt.mpr (heq ▸ hrt))
      exact ⟨r, (hmem r).mpr (.inr ⟨hr, hfrom, hrt.trans_lt hlt⟩), hkind, le_rfl, hrt⟩
    · obtain ⟨q, hq⟩ := select_isSome hr hkind (not_lt.mp hfrom)
      obtain ⟨-, hqkind, hqle, hlatest⟩ := mem_select hq
      exact ⟨q, (hmem q).mpr (.inl ⟨kind, hq⟩), hqkind, hlatest r hr hkind (not_lt.mp hfrom), hqle.trans ht⟩

/-! ## Runs -/

section Runs

variable [DecidableEq H] {localeCompare : String → String → Int}

theorem ingest_ok {events : List ResourceMeteringEvent} {n : Nat}
    (h : ingest receiptHash localeCompare db events = .ok (n, t)) :
    (admissionOrder localeCompare events).foldlM (admitEvent receiptHash) db = .ok t ∧
      ∀ u, (admissionOrder localeCompare events).foldlM (admitEvent receiptHash) u = .ok u →
        ingest receiptHash localeCompare u events = .ok (n, u) := by
  unfold ingest at h ⊢
  by_cases hinvalid : events.length < 1 ∨ 128 < events.length ∨ !events.all ResourceMeteringEvent.valid
  · rw [if_pos hinvalid] at h
    cases h
  · rw [if_neg hinvalid] at h
    cases hfold : (admissionOrder localeCompare events).foldlM (admitEvent receiptHash) db with
    | error e =>
      rw [hfold] at h
      cases h
    | ok v =>
      rw [hfold] at h
      cases h
      refine ⟨rfl, fun u hu => ?_⟩
      rw [if_neg hinvalid, hu]
      rfl

theorem ingest_spec {events : List ResourceMeteringEvent} {n : Nat} (hs : Sound db)
    (h : ingest receiptHash localeCompare db events = .ok (n, t)) :
    Sound t ∧ Grows db t ∧ ∀ u, Grows t u → ingest receiptHash localeCompare u events = .ok (n, u) := by
  obtain ⟨hfold, hagain⟩ := ingest_ok h
  obtain ⟨ht, hgrows, hholds⟩ := admitEvents_spec hs hfold
  refine ⟨ht, hgrows, fun u hu => hagain u (admitEvents_again fun event he => ?_)⟩
  exact (hholds event he).grows hu

theorem createRate_spec {tenantId : String} {definition : ResourceRateInput} {now : Int} {id : String}
    {rate : ResourceRate} (hs : Sound db)
    (h : createRate receiptHash db tenantId definition now id = .ok (rate, t)) :
    Sound t ∧ Grows db t := by
  unfold createRate at h
  split at h
  · split at h
    · cases h
    · cases h
      exact ⟨hs, .refl _⟩
  · split at h
    · cases h
    · cases h
      refine ⟨⟨fun k row hrow => ?_, hs.disjoint⟩, ⟨fun hr => hr, fun hr => hr⟩⟩
      dsimp only at hrow
      rw [Table.get_set] at hrow
      split at hrow
      · rename_i hk
        cases hrow
        exact hk.symm
      · exact hs.keyed k row hrow

theorem meter_spec (hs : Sound db) (a : MeteringAction) :
    Sound (meter receiptHash localeCompare db a) ∧
      Grows db (meter receiptHash localeCompare db a) := by
  unfold meter
  split
  · split
    · obtain ⟨ht, hgrows, -⟩ := ingest_spec hs ‹_›
      exact ⟨ht, hgrows⟩
    · exact ⟨hs, .refl _⟩
  · split
    · exact createRate_spec hs ‹_›
    · exact ⟨hs, .refl _⟩

theorem Sound.run {as : List MeteringAction} (h : Reach (metering receiptHash localeCompare) as db) :
    Sound db := by
  have hempty : Sound ({} : Database H) := {
    keyed := fun _ _ hrow => nomatch hrow
    disjoint := fun _ _ _ _ ha => nomatch ha }
  refine h.invariant Sound (fun s hs => ?_) fun s a t hs ht => ?_
  · rw [show s = {} from hs]
    exact hempty
  · rw [show t = meter receiptHash localeCompare s a from ht]
    exact (meter_spec hs a).1

theorem Grows.steps {as : List MeteringAction} (h : Reach (metering receiptHash localeCompare) as db)
    (hs : Steps (metering receiptHash localeCompare) db t) : Grows db t := by
  induction hs with
  | refl => exact .refl _
  | snoc hst hu ih =>
    obtain ⟨bs, hr⟩ := h.steps hst
    rw [show _ = meter receiptHash localeCompare _ _ from hu]
    exact ih.trans (meter_spec (Sound.run hr) _).2

end Runs

open MeasureTheory in
theorem resource_valuation [DecidableEq H] (receiptHash : Hashed → H)
    (localeCompare : String → String → Int) :
    (∀ (event : ResourceMeteringEvent) (rates : List ResourceRate), event.valid = true →
      Tiles event.fromAt event.toAt ((valueResourceReceipt event rates).map ResourceValuation.span) ∧
      (event.fromAt < event.toAt → ∀ v ∈ valueResourceReceipt event rates, v.fromAt < v.toAt) ∧
      (∀ v ∈ valueResourceReceipt event rates, ∀ (kind : RateKind) (x : ℝ), v.fromAt ≤ x → x < v.toAt →
        v.price kind = priceResourceInterval event (v.toAt - v.fromAt) (latest rates kind x)) ∧
      ∀ (kind : RateKind) (p : String → Bool),
        (totalPico kind p (valueResourceReceipt event rates) : ℝ) ≤
            ∫ x in Set.Ico (event.fromAt : ℝ) event.toAt, (unitCost event p (latest rates kind x) : ℝ) ∧
          ∫ x in Set.Ico (event.fromAt : ℝ) event.toAt, (unitCost event p (latest rates kind x) : ℝ) <
            totalPico kind p (valueResourceReceipt event rates) +
              (valueResourceReceipt event rates).length) ∧
    ∀ (as : List MeteringAction) (db : Database H), Reach (metering receiptHash localeCompare) as db →
      (∀ event : ResourceMeteringEvent, event.valid = true → event.quality = .confirmed →
        ∀ rows : List ResourceRate, rows.Perm (candidates db.rates.scan event) →
          valueResourceReceipt event rows =
            valueResourceReceipt event (ratesOf db.rates.scan event.resource)) ∧
      Disjoint db ∧
      ∀ (events : List ResourceMeteringEvent) (n : Nat) (t u : Database H),
        ingest receiptHash localeCompare db events = .ok (n, t) →
        Steps (metering receiptHash localeCompare) t u →
        ingest receiptHash localeCompare u events = .ok (n, u) := by
  have hle : ∀ event : ResourceMeteringEvent, event.valid = true → event.fromAt ≤ event.toAt := by
    intro event hvalid
    unfold ResourceMeteringEvent.valid at hvalid
    simp only [Bool.and_eq_true, decide_eq_true_eq] at hvalid
    exact hvalid.1.1
  refine ⟨fun event rates hvalid => ?_, fun as db hreach => ?_⟩
  · exact ⟨valuation_tiles (hle event hvalid), fun hlt v hv => valuation_nonempty hlt hv,
      fun v hv kind x hx hx' => valuation_latest (hle event hvalid) kind hv hx hx',
      fun kind p => valuation_exact (hle event hvalid) kind p⟩
  · have hsound := Sound.run hreach
    refine ⟨fun event hvalid _ rows hrows => hsound.candidates_value (hle event hvalid) hrows,
      hsound.disjoint, fun events n t u hok hsteps => ?_⟩
    obtain ⟨-, -, hagain⟩ := ingest_spec hsound hok
    have hstep : (metering receiptHash localeCompare).step db (.ingest events) t := by
      unfold metering meter
      dsimp only
      rw [hok]
    exact hagain u (Grows.steps (hreach.next hstep) hsteps)

/-- An hour of a volume of 32 GiB. -/
def volumeHour : ResourceMeteringEvent where
  eventId := "hour"
  resource := ⟨.workspace, "volume", "tenant", "workspace"⟩
  sourceId := "node"
  sourceBootId := "boot"
  incarnation := "first"
  fromAt := 3600000
  toAt := 7200000
  quality := .confirmed
  state := .retained
  quantity := .workspace (32 * gib)

def volumeRate : ResourceRateInput := ⟨.customer, 0, "CNY", .workspace { whole := 0, fraction := [0, 0, 1] }⟩

def machineRate : ResourceRateInput :=
  ⟨.customer, 1, "CNY", .compute { whole := 1 } { whole := 1 }⟩

open MeasureTheory in
theorem resource_valuation_hour :
    (totalPico .customer (fun _ => true)
        (valueResourceReceipt volumeHour [{ volumeRate with id := "rate" }]) : ℝ) ≤
      ∫ x in Set.Ico ((3600000 : Int) : ℝ) (7200000 : Int),
        (unitCost volumeHour (fun _ => true)
          (latest [{ volumeRate with id := "rate" }] .customer x) : ℝ) ∧
    ∃ t : Database Hashed, ingest id (fun _ _ => 0) {} [volumeHour] = .ok (1, t) ∧
      ingest id (fun _ _ => 0) t [volumeHour] = .ok (1, t) := by
  obtain ⟨hvalue, hruns⟩ := resource_valuation (H := Hashed) id fun _ _ => 0
  obtain ⟨t, ht⟩ : ∃ t : Database Hashed, ingest id (fun _ _ => 0) {} [volumeHour] = .ok (1, t) := ⟨_, rfl⟩
  exact ⟨((hvalue volumeHour [{ volumeRate with id := "rate" }] (by decide)).2.2.2 .customer _).1,
    t, ht, (hruns [] {} (.init rfl)).2.2 [volumeHour] 1 t t ht .refl⟩

/-- All rates of the tenant together hide the rate of the volume behind the one of the machines. -/
theorem candidates_other_kind : ¬ ∀ (as : List MeteringAction) (db : Database Hashed),
    Reach (metering id fun _ _ => 0) as db → ∀ event : ResourceMeteringEvent, event.valid = true →
      event.quality = .confirmed →
      valueResourceReceipt event (candidates db.rates.scan event) =
        valueResourceReceipt event
          ((db.rates.scan.filter fun r => r.tenantId = event.resource.tenantId).map RateRow.rate) := by
  intro hall
  have hempty : Reach (metering (id : Hashed → Hashed) fun _ _ => 0) [] {} := .init rfl
  have hvolume := hempty.next (a := .createRate "tenant" volumeRate 0 "volume") rfl
  have hmachine := hvolume.next (a := .createRate "tenant" machineRate 0 "machine") rfl
  exact absurd (hall _ _ hmachine volumeHour (by decide) rfl) (by decide +kernel)

end Accounting
end PiCloud
