import PiCloud.Lib.InsertionMap
import PiCloud.Lib.Run

/-!
# Accounting.ResourceJournal

The journal of a metering source: what it observes of a resource becomes receipts for intervals.

* `Sample`, `Cursor`, `Receipt`: an observation, the last committed one, and what is accounted.
* `State.capture`: one transaction, which chooses the interval and its quality.
* `State.acknowledge`: delivered receipts go, and with the last of them the closed cursors.
* `Careful`: no observation of a closed resource whose cursor is gone is taken for its first.
* `Inv`: what holds in every state that such steps lead to.
* `receipts_sound`, `receipts_after_collection`: what is accounted, and a run that accounts again.
-/

namespace PiCloud
namespace Accounting
namespace Source

open Lib

/-! ## Observations -/

structure Identity where
  kind : String
  resourceId : String
  tenantId : String
  workspaceId : String
deriving DecidableEq

structure Quantity where
  kind : String
  cpuMillis : Int := 0
  memoryBytes : Int := 0
  capacityBytes : Int := 0
deriving DecidableEq

inductive ResourceState where
  | running
  | retained
  | paused
  | absent
  | unknown
  | other (name : String)
deriving DecidableEq

def ResourceState.active : ResourceState → Bool
  | .running | .retained => true
  | _ => false

def ResourceState.stopped : ResourceState → Bool
  | .paused | .absent => true
  | _ => false

/-- Wall times are milliseconds; `clock` is the monotonic clock of the process, in nanoseconds. -/
structure Sample where
  resource : Identity
  quantity : Quantity
  incarnation : String
  state : ResourceState
  at_ : Int
  clock : Option Int
  startedAt : Int := 0
  endedAt : Int := 0
  uncertainReason : String := ""
  coverageStartedAt : Int := 0
deriving DecidableEq

structure Cursor where
  resource : Identity
  quantity : Quantity
  incarnation : String
  state : ResourceState
  at_ : Int
  boot : Nat
deriving DecidableEq

/-- An event of the source. -/
structure Receipt where
  resource : Identity
  boot : Nat
  incarnation : String
  from_ : Int
  to_ : Int
  confirmed : Bool
  reason : String
  state : ResourceState
  quantity : Quantity
deriving DecidableEq

structure Observation where
  clock : Int
  at_ : Int
  failed : Bool := false
  failedAt : Int := 0
deriving DecidableEq

def maximumObservedInterval : Int := 90000

def maxPending : Nat := 65536

def key (r : Identity) : String := r.kind ++ ":" ++ r.resourceId

/-! ## The choice of the interval -/

/-- The interval of a receipt, its quality, and whether there is one. -/
structure Draft where
  from_ : Int
  to_ : Int
  confirmed : Bool := true
  reason : String := ""
  emit : Bool := false

def Draft.unconfirmed (d : Draft) (reason : String) (emit : Bool) : Draft :=
  { d with confirmed := false, reason := reason, emit := emit }

/-- With what the process remembers of the resource. -/
def Sample.prepare (s : Sample) : Option Observation → Sample
  | none => s
  | some previous =>
    let wall := s.at_ - previous.at_
    let elapsed := (s.clock.getD 0 - previous.clock).tdiv 1000000
    let reason :=
      if 1000 < wall - elapsed ∨ 1000 < elapsed - wall then "clock_changed" else s.uncertainReason
    { s with
      uncertainReason :=
        if previous.failed = true ∧ reason = "" then "collection_unavailable" else reason
      coverageStartedAt :=
        if previous.failed = true ∧ s.coverageStartedAt = 0 then previous.failedAt
        else s.coverageStartedAt }

/-- The first observation of a resource; `none` where there is nothing to keep. -/
def firstDraft (s : Sample) : Option Draft :=
  if s.state.active = false ∧ s.coverageStartedAt = 0 then none
  else if 0 < s.coverageStartedAt then
    let begin_ := min s.coverageStartedAt s.at_
    some
      { from_ := begin_
        to_ := if s.state.stopped = true ∧ 0 < s.endedAt then max begin_ (min s.endedAt s.at_) else s.at_
        confirmed := false
        reason := if s.uncertainReason ≠ "" then s.uncertainReason else "collection_unavailable"
        emit := true }
  else some { from_ := s.at_, to_ := s.at_, emit := true }

def nextDraft (old : Cursor) (boot : Nat) (s : Sample) : Draft :=
  let d : Draft := { from_ := old.at_, to_ := max s.at_ old.at_ }
  if s.at_ < old.at_ then d.unconfirmed "clock_changed" true
  else if s.uncertainReason ≠ "" then d.unconfirmed s.uncertainReason true
  else if old.boot ≠ boot then d.unconfirmed "source_restarted" (d.from_ < d.to_)
  else if s.incarnation ≠ old.incarnation then
    -- a resume from a known pause can start at the new physical time
    if old.state = .paused ∧ s.state.active = true ∧ old.at_ ≤ s.startedAt ∧ s.startedAt ≤ s.at_ then
      let d := { d with from_ := s.startedAt, emit := s.startedAt < d.to_ }
      if maximumObservedInterval < d.to_ - d.from_ then d.unconfirmed "observation_unavailable" d.emit
      else d
    else d.unconfirmed "instance_changed" (d.from_ < d.to_)
  else if s.quantity ≠ old.quantity then d.unconfirmed "observation_unavailable" (d.from_ < d.to_)
  else if old.state.active = true ∧ s.state.active = true ∧ d.to_ - d.from_ ≤ maximumObservedInterval then
    { d with emit := d.from_ < d.to_ }
  else if old.state.active = true ∧ s.state.stopped = true ∧ d.from_ ≤ s.endedAt ∧ s.endedAt ≤ d.to_ then
    { d with to_ := s.endedAt, emit := d.from_ < s.endedAt }
  else if old.state = s.state ∧ s.state.active = false ∧ s.state ≠ .unknown then d
  else d.unconfirmed "observation_unavailable" (d.from_ < d.to_)

def Draft.stop (s : Sample) (d : Draft) : Draft :=
  if s.state.stopped = true ∧ d.from_ ≤ s.endedAt ∧ s.endedAt ≤ d.to_ then { d with to_ := s.endedAt } else d

def Draft.edge (old : Cursor) (s : Sample) (d : Draft) : Draft :=
  if old.state ≠ s.state ∧ s.state.stopped = true then { d with emit := true } else d

/-! ## The journal -/

/-- A capture that was not refused for its form, and what came of it. -/
structure Attempt where
  /-- As it was accounted, with the last known quantity if it has none of its own. -/
  sample : Sample
  clock : Int
  boot : Nat
  committed : Bool
  receipt : Option Receipt := none

def Attempt.key (a : Attempt) : String := Source.key a.sample.resource

structure State where
  cursors : InsertionMap String Cursor := {}
  pending : InsertionMap Nat Receipt := {}
  sequence : Nat := 0
  pendingCount : Nat := 0
  boot : Nat := 0
  observations : InsertionMap String Observation := {}
  /-- All attempts, newest first. -/
  log : List Attempt := []

/-- What a transaction writes: the receipt, and the cursor. -/
structure Writes where
  sample : Sample
  receipt : Option Receipt
  cursor : Option Cursor

section Capture

variable (boot : Nat) (pendingCount : Nat)

def receipt (s : Sample) (d : Draft) : Receipt :=
  { resource := s.resource, boot := boot, incarnation := s.incarnation, from_ := d.from_, to_ := d.to_
    confirmed := d.confirmed, reason := d.reason, state := s.state, quantity := s.quantity }

def cursor (s : Sample) (at_ : Int) : Cursor :=
  { resource := s.resource, quantity := s.quantity, incarnation := s.incarnation, state := s.state
    at_ := at_, boot := boot }

/-- The transaction of `CaptureAndUpdate`; `none` is a failure. -/
def transaction (old : Option Cursor) (s : Sample) : Option Writes :=
  match old with
  | none =>
    match firstDraft s with
    | none => some { sample := s, receipt := none, cursor := none }
    | some d =>
      if maxPending ≤ pendingCount then none
      else some
        { sample := s, receipt := some (receipt boot s (d.stop s)), cursor := some (cursor boot s s.at_) }
  | some old =>
    if old.resource ≠ s.resource then none
    else if old.state = .absent ∧ s.state ≠ .absent then none
    else
      let s := if s.state = .unknown then { s with quantity := old.quantity } else s
      let d := ((nextDraft old boot s).stop s).edge old s
      let next := cursor boot s (max s.at_ old.at_)
      if d.emit = true then
        if maxPending ≤ pendingCount then none
        else some { sample := s, receipt := some (receipt boot s d), cursor := some next }
      else some { sample := s, receipt := none, cursor := some next }

end Capture

/-- The checks before the transaction. -/
def Sample.wellFormed (isUuid : String → Bool) (s : Sample) : Bool :=
  s.resource.resourceId ≠ "" && s.incarnation ≠ "" && 0 < s.at_ && s.clock.isSome &&
    s.resource.kind = s.quantity.kind && 0 ≤ s.coverageStartedAt && isUuid s.resource.tenantId &&
    isUuid s.resource.workspaceId

namespace State

variable (st : State)

/-- The capture failed: the gap must not be confirmed later. -/
def fails (s : Sample) : State :=
  let k := key s.resource
  let previous := (st.observations.get k).getD { clock := s.clock.getD 0, at_ := s.at_ }
  { st with
    observations := st.observations.set k
      { previous with
        failed := true, failedAt := if previous.failed then previous.failedAt else s.at_ }
    log := { sample := s, clock := s.clock.getD 0, boot := st.boot, committed := false } :: st.log }

def commits (s : Sample) (w : Writes) : State :=
  let k := key s.resource
  { st with
    cursors := match w.cursor with
      | some c => st.cursors.set k c
      | none => st.cursors
    pending := match w.receipt with
      | some r => st.pending.set (st.sequence + 1) r
      | none => st.pending
    sequence := if w.receipt.isSome then st.sequence + 1 else st.sequence
    pendingCount := if w.receipt.isSome then st.pendingCount + 1 else st.pendingCount
    observations :=
      if w.cursor = none ∨ s.state = .absent then st.observations.delete k
      else st.observations.set k { clock := s.clock.getD 0, at_ := s.at_ }
    log :=
      { sample := w.sample, clock := s.clock.getD 0, boot := st.boot, committed := true
        receipt := w.receipt } :: st.log }

/-- `CaptureAndUpdate`; `fails` says whether the database or the update refuses. -/
def capture (s : Sample) (fails : Bool) : State :=
  let s := s.prepare (st.observations.get (key s.resource))
  match transaction st.boot st.pendingCount (st.cursors.get (key s.resource)) s with
  | none => st.fails s
  | some w => if fails then st.fails s else st.commits s w

/-- The rows that are there go, unless one was changed. -/
def remove : List (Nat × Receipt) → InsertionMap Nat Receipt × Nat → Option (InsertionMap Nat Receipt × Nat)
  | [], m => some m
  | (k, body) :: rows, (pending, count) =>
    match pending.get k with
    | none => remove rows (pending, count)
    | some raw =>
      if raw ≠ body ∨ count = 0 then none else remove rows (pending.delete k, count - 1)

/-- `Acknowledge`: closed cursors are kept while any delivery remains. -/
def acknowledge (rows : List (Nat × Receipt)) : State :=
  match remove rows (st.pending, st.pendingCount) with
  | none => st
  | some (pending, count) =>
    { st with
      pending := pending
      pendingCount := count
      cursors := if count = 0 then st.cursors.filter fun _ c => c.state ≠ .absent else st.cursors }

/-- `New` of another process, which has another boot. -/
def restart : State := { st with boot := st.boot + 1, observations := {} }

end State

inductive Action where
  | capture (s : Sample) (fails : Bool)
  | acknowledge (rows : List (Nat × Receipt))
  | restart

def act (isUuid : String → Bool) (st : State) : Action → Option State
  | .capture s fails => if s.wellFormed isUuid = true then some (st.capture s fails) else none
  | .acknowledge rows => some (st.acknowledge rows)
  | .restart => some st.restart

def system (isUuid : String → Bool) : System State Action where
  init st := st = {}
  step st a t := act isUuid st a = some t

/-! ## The log -/

def lastCommit (k : String) : List Attempt → Option Attempt
  | [] => none
  | a :: log => if a.key = k ∧ a.committed = true then some a else lastCommit k log

/-- A capture of the resource has failed since then. -/
def failedSince (k : String) : List Attempt → Bool
  | [] => false
  | a :: log =>
    if a.key = k ∧ a.committed = true then false else decide (a.key = k) || failedSince k log

def receipts (k : String) (log : List Attempt) : List Receipt :=
  log.filterMap fun a => if a.key = k then a.receipt else none

def Closed (k : String) (log : List Attempt) : Prop :=
  ∃ a ∈ log, a.key = k ∧ a.committed = true ∧ a.sample.state = .absent

/-- The wall clock and the process agree on the time between two captures. -/
def SteadyClock (l a : Attempt) : Prop :=
  let wall := a.sample.at_ - l.sample.at_
  let elapsed := (a.clock - l.clock).tdiv 1000000
  wall - elapsed ≤ 1000 ∧ elapsed - wall ≤ 1000

/-- An interval that was observed from its start to its end: between two consecutive committed captures
of the same boot with no failed capture and no clock jump in between, of the same quantity, or from a
native resume time on; and up to the second capture, or to a native stop time. -/
def Observed (older : List Attempt) (a : Attempt) (r : Receipt) : Prop :=
  ∃ l, lastCommit a.key older = some l ∧ failedSince a.key older = false ∧ l.boot = a.boot ∧
    SteadyClock l a ∧ l.sample.at_ ≤ r.from_ ∧ r.to_ ≤ a.sample.at_ ∧
    (l.sample.quantity = a.sample.quantity ∧ l.sample.incarnation = a.sample.incarnation ∧
        l.sample.state.active = true ∧
        (a.sample.state.active = true ∧ r.to_ = a.sample.at_ ∨
          a.sample.state.stopped = true ∧ r.to_ = a.sample.endedAt) ∨
      l.sample.state = .paused ∧ a.sample.state.active = true ∧ r.from_ = a.sample.startedAt ∧
        r.to_ = a.sample.at_)

/-- No capture of a closed resource whose cursor is gone is active, or comes with a start of coverage. -/
def Careful (st : State) : Action → Prop
  | .capture s _ =>
    let k := key s.resource
    Closed k st.log → st.cursors.get k = none →
      s.state.active = false ∧ (s.prepare (st.observations.get k)).coverageStartedAt = 0
  | _ => True

theorem lastCommit_cons {k : String} {log : List Attempt} {a : Attempt} : lastCommit k (a :: log) =
    if a.key = k ∧ a.committed = true then some a else lastCommit k log := rfl

theorem failedSince_cons {k : String} {log : List Attempt} {a : Attempt} : failedSince k (a :: log) =
    if a.key = k ∧ a.committed = true then false else decide (a.key = k) || failedSince k log := rfl

theorem lastCommit_mem {k : String} {log : List Attempt} {a : Attempt} (h : lastCommit k log = some a) :
    a ∈ log ∧ a.key = k ∧ a.committed = true := by
  induction log with
  | nil => cases h
  | cons b log ih =>
    unfold lastCommit at h
    split at h
    · rename_i hb
      cases h
      exact ⟨List.mem_cons_self, hb⟩
    · exact And.imp_left (List.mem_cons_of_mem _) (ih h)

theorem closed_cons {k : String} {log : List Attempt} {a : Attempt} :
    Closed k (a :: log) ↔
      (a.key = k ∧ a.committed = true ∧ a.sample.state = .absent) ∨ Closed k log := by
  constructor
  · rintro ⟨b, hb, h⟩
    obtain rfl | hb := List.mem_cons.mp hb
    · exact .inl h
    · exact .inr ⟨b, hb, h⟩
  · rintro (h | ⟨b, hb, h⟩)
    · exact ⟨a, List.mem_cons_self, h⟩
    · exact ⟨b, List.mem_cons_of_mem _ hb, h⟩

theorem receipts_cons {k : String} {log : List Attempt} {a : Attempt} :
    receipts k (a :: log) =
      (if a.key = k then a.receipt else none).toList ++ receipts k log := by
  unfold receipts
  rw [List.filterMap_cons]
  split
  · rename_i h
    rw [h]
    rfl
  · rename_i r h
    rw [h]
    rfl

/-! ## What a draft is -/

theorem prepare_state (s : Sample) (o : Option Observation) : (s.prepare o).state = s.state := by
  cases o <;> rfl

theorem prepare_resource (s : Sample) (o : Option Observation) : (s.prepare o).resource = s.resource := by
  cases o <;> rfl

theorem stop_bounds {s : Sample} {d : Draft} (h : d.from_ ≤ d.to_) :
    (d.stop s).from_ = d.from_ ∧ d.from_ ≤ (d.stop s).to_ ∧ (d.stop s).to_ ≤ d.to_ ∧
      (d.stop s).confirmed = d.confirmed ∧ (d.stop s).emit = d.emit := by
  unfold Draft.stop
  split
  · rename_i hstop
    exact ⟨rfl, hstop.2.1, hstop.2.2, rfl, rfl⟩
  · exact ⟨rfl, h, Int.le_refl _, rfl, rfl⟩

theorem edge_fields (old : Cursor) (s : Sample) (d : Draft) :
    (d.edge old s).from_ = d.from_ ∧ (d.edge old s).to_ = d.to_ ∧
      (d.edge old s).confirmed = d.confirmed := by
  unfold Draft.edge
  split
  · exact ⟨rfl, rfl, rfl⟩
  · exact ⟨rfl, rfl, rfl⟩

/-- A confirmed draft that is not empty. -/
def Confirms (old : Cursor) (boot : Nat) (s : Sample) (d : Draft) : Prop :=
  old.at_ ≤ s.at_ ∧ s.uncertainReason = "" ∧ old.boot = boot ∧
    (s.quantity = old.quantity ∧ s.incarnation = old.incarnation ∧ old.state.active = true ∧
        (s.state.active = true ∧ d.to_ = s.at_ ∨ s.state.stopped = true ∧ d.to_ = s.endedAt) ∨
      old.state = .paused ∧ s.state.active = true ∧ d.from_ = s.startedAt ∧ d.to_ = s.at_)

theorem nextDraft_spec (old : Cursor) (boot : Nat) (s : Sample) :
    old.at_ ≤ (nextDraft old boot s).from_ ∧
      (nextDraft old boot s).from_ ≤ (nextDraft old boot s).to_ ∧
      (nextDraft old boot s).to_ ≤ max s.at_ old.at_ ∧
      ((nextDraft old boot s).confirmed = true →
        Confirms old boot s (nextDraft old boot s) ∨
          (s.state = old.state ∧ s.state.active = false ∧ (nextDraft old boot s).emit = false)) := by
  have hmax : old.at_ ≤ max s.at_ old.at_ := Int.le_max_right _ _
  unfold nextDraft
  dsimp only
  split
  · exact ⟨Int.le_refl _, hmax, Int.le_refl _, nofun⟩
  · rename_i hback
    have hat : max s.at_ old.at_ = s.at_ := Int.max_eq_left (Int.not_lt.mp hback)
    split
    · exact ⟨Int.le_refl _, hmax, Int.le_refl _, nofun⟩
    · rename_i hreason
      split
      · exact ⟨Int.le_refl _, hmax, Int.le_refl _, nofun⟩
      · rename_i hboot
        have hbase : old.at_ ≤ s.at_ ∧ s.uncertainReason = "" ∧ old.boot = boot :=
          ⟨Int.not_lt.mp hback, not_not.mp hreason, not_not.mp hboot⟩
        split
        · split
          · rename_i hresume
            split
            · exact ⟨hresume.2.2.1, Int.le_trans hresume.2.2.2 (Int.le_max_left _ _), Int.le_refl _, nofun⟩
            · refine ⟨hresume.2.2.1, Int.le_trans hresume.2.2.2 (Int.le_max_left _ _), Int.le_refl _, fun _ => .inl ?_⟩
              exact ⟨hbase.1, hbase.2.1, hbase.2.2, .inr ⟨hresume.1, hresume.2.1, rfl, hat⟩⟩
          · exact ⟨Int.le_refl _, hmax, Int.le_refl _, nofun⟩
        · rename_i hincarnation
          split
          · exact ⟨Int.le_refl _, hmax, Int.le_refl _, nofun⟩
          · rename_i hquantity
            have hsame := And.intro (not_not.mp hquantity) (not_not.mp hincarnation)
            split
            · rename_i hactive
              refine ⟨Int.le_refl _, hmax, Int.le_refl _, fun _ => .inl ⟨hbase.1, hbase.2.1, hbase.2.2, .inl ?_⟩⟩
              exact ⟨hsame.1, hsame.2, hactive.1, .inl ⟨hactive.2.1, hat⟩⟩
            · split
              · rename_i hstopped
                refine ⟨Int.le_refl _, hstopped.2.2.1, hstopped.2.2.2,
                  fun _ => .inl ⟨hbase.1, hbase.2.1, hbase.2.2, .inl ?_⟩⟩
                exact ⟨hsame.1, hsame.2, hstopped.1, .inr ⟨hstopped.2.1, rfl⟩⟩
              · split
                · rename_i hquiet
                  exact ⟨Int.le_refl _, hmax, Int.le_refl _, fun _ => .inr ⟨hquiet.1.symm, hquiet.2.1, rfl⟩⟩
                · exact ⟨Int.le_refl _, hmax, Int.le_refl _, nofun⟩

theorem active_of_stopped {s : ResourceState} (h : s.stopped = true) : s.active = false := by
  cases s <;> first | rfl | cases h

theorem confirms_stop {old : Cursor} {boot : Nat} {s : Sample} {d : Draft} (h : Confirms old boot s d) :
    Confirms old boot s (d.stop s) := by
  unfold Draft.stop
  split
  · rename_i hstop
    have hactive := active_of_stopped hstop.1
    obtain ⟨hat, hreason, hboot, ⟨hquantity, hincarnation, hold, -⟩ | ⟨-, hresumed, -⟩⟩ := h
    · exact ⟨hat, hreason, hboot, .inl ⟨hquantity, hincarnation, hold, .inr ⟨hstop.1, rfl⟩⟩⟩
    · rw [hactive] at hresumed
      cases hresumed
  · exact h

theorem firstDraft_spec {s : Sample} {d : Draft} (h : firstDraft s = some d) :
    d.from_ ≤ d.to_ ∧ d.to_ ≤ s.at_ ∧ (d.confirmed = true → d.from_ = d.to_) := by
  unfold firstDraft at h
  split at h
  · cases h
  · split at h
    · cases h
      dsimp only
      split
      · exact ⟨Int.le_max_left _ _,
          Int.max_le.mpr ⟨Int.min_le_right _ _, Int.min_le_right _ _⟩, nofun⟩
      · exact ⟨Int.min_le_right _ _, Int.le_refl _, nofun⟩
    · cases h
      exact ⟨Int.le_refl _, Int.le_refl _, fun _ => rfl⟩

/-- What a transaction writes for a resource without a cursor. -/
structure WritesFirst (boot : Nat) (s : Sample) (w : Writes) : Prop where
  sample : w.sample = s
  writes : (w.receipt = none ∧ w.cursor = none) ∨
    ¬ (s.state.active = false ∧ s.coverageStartedAt = 0) ∧ w.cursor = some (cursor boot s s.at_) ∧
      ∃ r, w.receipt = some r ∧ r.from_ ≤ r.to_ ∧ r.to_ ≤ s.at_ ∧
        (r.confirmed = true → r.from_ = r.to_)

/-- What a transaction writes for a resource with a cursor. -/
structure WritesNext (boot : Nat) (old : Cursor) (s : Sample) (w : Writes) : Prop where
  sample : w.sample = if s.state = .unknown then { s with quantity := old.quantity } else s
  open_ : old.state = .absent → s.state = .absent
  cursor : w.cursor = some (cursor boot w.sample (max s.at_ old.at_))
  receipt : ∀ r, w.receipt = some r → old.at_ ≤ r.from_ ∧ r.from_ ≤ r.to_ ∧ r.to_ ≤ max s.at_ old.at_ ∧
    (r.confirmed = true → ∃ d, d.from_ = r.from_ ∧ d.to_ = r.to_ ∧ Confirms old boot w.sample d)

theorem transaction_first {boot n : Nat} {s : Sample} {w : Writes}
    (h : transaction boot n none s = some w) : WritesFirst boot s w := by
  unfold transaction at h
  dsimp only at h
  split at h
  · cases h
    exact ⟨rfl, .inl ⟨rfl, rfl⟩⟩
  · rename_i d hd
    split at h
    · cases h
    · cases h
      refine ⟨rfl, .inr ⟨fun hquiet => ?_, rfl, _, rfl, ?_⟩⟩
      · unfold firstDraft at hd
        rw [if_pos hquiet] at hd
        cases hd
      · obtain ⟨hle, hat, hempty⟩ := firstDraft_spec hd
        obtain ⟨hfrom, hlower, hupper, hconfirmed, -⟩ := stop_bounds (s := s) hle
        unfold receipt
        dsimp only
        rw [hfrom, hconfirmed]
        refine ⟨hlower, Int.le_trans hupper hat, fun hc => Int.le_antisymm hlower ?_⟩
        rw [hempty hc]
        exact hupper

theorem transaction_next {boot n : Nat} {old : Cursor} {s : Sample} {w : Writes}
    (h : transaction boot n (some old) s = some w) : WritesNext boot old s w := by
  unfold transaction at h
  dsimp only at h
  split at h
  · cases h
  · split at h
    · cases h
    · rename_i hopen
      have hstate : old.state = .absent → s.state = .absent := fun ho => by
        by_contra hs
        exact hopen ⟨ho, hs⟩
      have hat : ∀ t : Sample, t = (if s.state = .unknown then { s with quantity := old.quantity } else s) →
          t.at_ = s.at_ := by
        rintro t rfl
        split <;> rfl
      generalize ht : (if s.state = .unknown then { s with quantity := old.quantity } else s) = t at h
      have hta := hat t ht.symm
      split at h
      · rename_i hemit
        split at h
        · cases h
        · cases h
          refine ⟨ht.symm, hstate, by rw [← hta], ?_⟩
          rintro r hr
          cases hr
          obtain ⟨hlow, hle, hup, hspec⟩ := nextDraft_spec old boot t
          obtain ⟨hfrom, hlower, hupper, hconfirmed, hstopEmit⟩ := stop_bounds (s := t) hle
          obtain ⟨hefrom, heto, heconfirmed⟩ := edge_fields old t ((nextDraft old boot t).stop t)
          unfold receipt
          dsimp only
          rw [hefrom, heto, heconfirmed, hfrom, hconfirmed, ← hta]
          refine ⟨hlow, hlower, Int.le_trans hupper hup, fun hc => ?_⟩
          obtain hconfirms | ⟨hsame, -, hquiet⟩ := hspec hc
          · exact ⟨_, hfrom, rfl, confirms_stop hconfirms⟩
          · unfold Draft.edge at hemit
            rw [if_neg (fun hne => hne.1 hsame.symm), hstopEmit, hquiet] at hemit
            cases hemit
      · cases h
        exact ⟨ht.symm, hstate, by rw [← hta], fun _ hr => absurd hr.symm (Option.some_ne_none _)⟩

theorem prepare_certain {s : Sample} {o : Observation} (h : (s.prepare (some o)).uncertainReason = "") :
    s.at_ - o.at_ - (s.clock.getD 0 - o.clock).tdiv 1000000 ≤ 1000 ∧
      (s.clock.getD 0 - o.clock).tdiv 1000000 - (s.at_ - o.at_) ≤ 1000 ∧ o.failed = false := by
  have hchanged : "clock_changed" ≠ "" := by decide
  have hunavailable : "collection_unavailable" ≠ "" := by decide
  unfold Sample.prepare at h
  dsimp only at h
  by_cases hclock : 1000 < s.at_ - o.at_ - (s.clock.getD 0 - o.clock).tdiv 1000000 ∨
      1000 < (s.clock.getD 0 - o.clock).tdiv 1000000 - (s.at_ - o.at_)
  · rw [if_pos hclock, if_neg fun hc => hchanged hc.2] at h
    exact absurd h hchanged
  · rw [if_neg hclock] at h
    rw [not_or, Int.not_lt, Int.not_lt] at hclock
    refine ⟨hclock.1, hclock.2, ?_⟩
    split at h
    · exact absurd h hunavailable
    · rename_i hfailed
      simpa [h] using hfailed

/-! ## The invariant -/

structure Inv (st : State) : Prop where
  wrote : ∀ {k : String} {c : Cursor}, st.cursors.get k = some c → ∃ a, lastCommit k st.log = some a ∧
    a.boot = c.boot ∧ a.sample.at_ ≤ c.at_ ∧ a.sample.quantity = c.quantity ∧
    a.sample.incarnation = c.incarnation ∧ a.sample.state = c.state
  memory : ∀ {k : String} {c : Cursor}, st.cursors.get k = some c → c.boot = st.boot →
    c.state ≠ .absent → ∃ a o, lastCommit k st.log = some a ∧ st.observations.get k = some o ∧
      o.clock = a.clock ∧ o.at_ = a.sample.at_ ∧ (failedSince k st.log = true → o.failed = true)
  boots : ∀ {k : String} {c : Cursor}, st.cursors.get k = some c → c.boot ≤ st.boot
  bound : ∀ {k : String} {c : Cursor}, st.cursors.get k = some c → ∀ r ∈ receipts k st.log, r.to_ ≤ c.at_
  shut : ∀ {k : String} {c : Cursor}, Closed k st.log → st.cursors.get k = some c → c.state = .absent
  fresh : ∀ {k : String}, st.cursors.get k = none → Closed k st.log ∨ receipts k st.log = []

def Ordered (log : List Attempt) : Prop :=
  ∀ k, (receipts k log).Pairwise (fun later earlier => earlier.to_ ≤ later.from_) ∧
    ∀ r ∈ receipts k log, r.from_ ≤ r.to_

def Truthful (log : List Attempt) : Prop :=
  ∀ a older, a :: older <:+ log → ∀ r, a.receipt = some r → r.confirmed = true → r.from_ < r.to_ →
    Observed older a r

def Final (log : List Attempt) : Prop :=
  ∀ a older, a :: older <:+ log → Closed a.key older → a.sample.state ≠ .absent → a.receipt = none

structure Sound (log : List Attempt) : Prop where
  ordered : Ordered log
  truthful : Truthful log
  final : Final log

theorem Sound.cons {log : List Attempt} (h : Sound log) {a : Attempt}
    (hreceipt : ∀ r, a.receipt = some r → r.from_ ≤ r.to_ ∧ (∀ q ∈ receipts a.key log, q.to_ ≤ r.from_) ∧
      (r.confirmed = true → r.from_ < r.to_ → Observed log a r))
    (hfinal : Closed a.key log → a.sample.state ≠ .absent → a.receipt = none) : Sound (a :: log) where
  ordered k := by
    rw [receipts_cons]
    obtain ⟨hpairs, hle⟩ := h.ordered k
    split
    · rename_i hk
      subst hk
      cases hr : a.receipt with
      | none => exact ⟨hpairs, hle⟩
      | some r =>
        obtain ⟨hrle, hrafter, -⟩ := hreceipt r hr
        refine ⟨List.pairwise_cons.mpr ⟨hrafter, hpairs⟩, fun q hq => ?_⟩
        obtain rfl | hq := List.mem_cons.mp hq
        · exact hrle
        · exact hle q hq
    · exact ⟨hpairs, hle⟩
  truthful b older hsuffix r hr hc hlt := by
    obtain heq | hsuffix := List.suffix_cons_iff.mp hsuffix
    · cases heq
      exact (hreceipt r hr).2.2 hc hlt
    · exact h.truthful b older hsuffix r hr hc hlt
  final b older hsuffix hclosed hstate := by
    obtain heq | hsuffix := List.suffix_cons_iff.mp hsuffix
    · cases heq
      exact hfinal hclosed hstate
    · exact h.final b older hsuffix hclosed hstate

variable {st t : State}

theorem inv_fails (h : Inv st) (hs : Sound st.log) (s : Sample) :
    Inv (st.fails s) ∧ Sound (st.fails s).log := by
  have hlast : ∀ k, lastCommit k (st.fails s).log = lastCommit k st.log := by
    intro k
    exact if_neg fun hk => Bool.false_ne_true hk.2
  have hreceipts : ∀ k, receipts k (st.fails s).log = receipts k st.log := by
    intro k
    unfold State.fails
    rw [receipts_cons]
    split
    · rfl
    · rfl
  have hclosed : ∀ {k}, Closed k (st.fails s).log ↔ Closed k st.log :=
    closed_cons.trans (or_iff_right fun hk => Bool.false_ne_true hk.2.1)
  refine ⟨?_, hs.cons (fun _ hr => absurd hr.symm (Option.some_ne_none _)) fun _ _ => rfl⟩
  constructor
  · intro k c hc
    rw [hlast]
    exact h.wrote hc
  · intro k c hc hboot hstate
    obtain ⟨a, o, ha, ho, hclock, hat, hfailed⟩ := h.memory hc hboot hstate
    rw [hlast]
    by_cases hk : k = key s.resource
    · subst hk
      refine ⟨a, _, ha, InsertionMap.get_set_self _ _ _, ?_, ?_, fun _ => rfl⟩
      · dsimp only
        rw [ho]
        exact hclock
      · dsimp only
        rw [ho]
        exact hat
    · refine ⟨a, o, ha, ?_, hclock, hat, fun hsince => hfailed ?_⟩
      · exact (InsertionMap.get_set_ne _ _ hk).trans ho
      · unfold State.fails at hsince
        rw [failedSince_cons, if_neg fun hc => Bool.false_ne_true hc.2, Bool.or_eq_true,
          decide_eq_true_eq] at hsince
        exact hsince.resolve_left fun heq => hk heq.symm
  · exact h.boots
  · intro k c hc
    rw [hreceipts]
    exact h.bound hc
  · intro k c hk hc
    exact h.shut (hclosed.mp hk) hc
  · intro k hk
    rw [hreceipts]
    exact (h.fresh hk).imp_left hclosed.mpr

theorem inv_commits (h : Inv st) (hs : Sound st.log) {s : Sample} {w : Writes} {c : Cursor}
    (hcursor : w.cursor = some c) (hc : c = cursor st.boot w.sample c.at_)
    (hsample : w.sample.resource = s.resource ∧ w.sample.state = s.state ∧ w.sample.at_ = s.at_)
    (hat : s.at_ ≤ c.at_)
    (hshut : Closed (key s.resource) st.log → s.state = .absent)
    (hreceipts : ∀ r, w.receipt = some r → r.from_ ≤ r.to_ ∧ r.to_ ≤ c.at_ ∧
      (∀ q ∈ receipts (key s.resource) st.log, q.to_ ≤ r.from_) ∧
      (r.confirmed = true → r.from_ < r.to_ → Observed st.log
        { sample := w.sample, clock := s.clock.getD 0, boot := st.boot, committed := true, receipt := w.receipt } r))
    (hbound : ∀ q ∈ receipts (key s.resource) st.log, q.to_ ≤ c.at_) :
    Inv (st.commits s w) ∧ Sound (st.commits s w).log := by
  have hkey : key w.sample.resource = key s.resource := congrArg key hsample.1
  have hget : ∀ k, (st.commits s w).cursors.get k =
      if k = key s.resource then some c else st.cursors.get k := by
    intro k
    unfold State.commits
    dsimp only
    rw [hcursor]
    exact InsertionMap.get_set _ _ _ _
  have hlast : ∀ k, lastCommit k (st.commits s w).log =
      if k = key s.resource then
        some { sample := w.sample, clock := s.clock.getD 0, boot := st.boot, committed := true, receipt := w.receipt }
      else lastCommit k st.log := by
    intro k
    unfold State.commits
    rw [lastCommit_cons]
    unfold Attempt.key
    dsimp only
    rw [hkey]
    by_cases hk : k = key s.resource
    · rw [if_pos hk, if_pos ⟨hk.symm, rfl⟩]
    · rw [if_neg hk, if_neg fun heq => hk heq.1.symm]
  have hmem : ∀ {k r}, r ∈ receipts k (st.commits s w).log →
      (k = key s.resource ∧ w.receipt = some r) ∨ r ∈ receipts k st.log := by
    intro k r hr
    unfold State.commits at hr
    rw [receipts_cons] at hr
    unfold Attempt.key at hr
    dsimp only at hr
    rw [hkey] at hr
    obtain hr | hr := List.mem_append.mp hr
    · left
      split at hr
      · rename_i hk
        exact ⟨hk.symm, Option.mem_toList.mp hr⟩
      · cases hr
    · exact .inr hr
  refine ⟨?_, hs.cons ?_ ?_⟩
  · constructor
    · intro k d hd
      rw [hget] at hd
      rw [hlast]
      split at hd
      · cases hd
        refine ⟨_, if_pos ‹_›, ?_⟩
        rw [hc]
        exact ⟨rfl, hsample.2.2 ▸ hat, rfl, rfl, rfl⟩
      · rw [if_neg ‹_›]
        exact h.wrote hd
    · intro k d hd hboot hstate
      rw [hget] at hd
      rw [hlast]
      split at hd
      · rename_i hk
        cases hd
        subst hk
        have hnot : ¬ (w.cursor = none ∨ s.state = .absent) := by
          rintro (hnone | habsent)
          · rw [hcursor] at hnone
            cases hnone
          · rw [hc] at hstate
            exact hstate (hsample.2.1.trans habsent)
        refine ⟨_, { clock := s.clock.getD 0, at_ := s.at_ }, if_pos rfl, ?_, rfl, hsample.2.2.symm, fun hfailed => ?_⟩
        · unfold State.commits
          dsimp only
          rw [if_neg hnot]
          exact InsertionMap.get_set_self _ _ _
        · unfold State.commits at hfailed
          rw [failedSince_cons, if_pos ⟨hkey, rfl⟩] at hfailed
          cases hfailed
      · rename_i hk
        obtain ⟨a, o, ha, ho, hclock, hat, hfailed⟩ := h.memory hd hboot hstate
        refine ⟨a, o, by rw [if_neg hk]; exact ha, ?_, hclock, hat, fun hsince => hfailed ?_⟩
        · unfold State.commits
          dsimp only
          split
          · rw [InsertionMap.get_delete, if_neg hk]
            exact ho
          · exact (InsertionMap.get_set_ne _ _ hk).trans ho
        · unfold State.commits at hsince
          have hne : ¬ key w.sample.resource = k := fun heq => hk (heq.symm.trans hkey)
          rw [failedSince_cons, if_neg fun hc => hne hc.1, Bool.or_eq_true, decide_eq_true_eq] at hsince
          exact hsince.resolve_left hne
    · intro k d hd
      rw [hget] at hd
      split at hd
      · cases hd
        rw [hc]
        exact Nat.le_refl _
      · exact h.boots hd
    · intro k d hd r hr
      rw [hget] at hd
      split at hd
      · rename_i hk
        cases hd
        subst hk
        obtain ⟨-, hr⟩ | hr := hmem hr
        · exact (hreceipts r hr).2.1
        · exact hbound r hr
      · rename_i hk
        obtain ⟨heq, -⟩ | hr := hmem hr
        · exact absurd heq hk
        · exact h.bound hd r hr
    · intro k d hk hd
      rw [hget] at hd
      split at hd
      · rename_i heq
        cases hd
        subst heq
        rw [hc]
        obtain ⟨-, -, habsent⟩ | hold := closed_cons.mp hk
        · exact habsent
        · exact hsample.2.1.trans (hshut hold)
      · rename_i hne
        obtain ⟨heq, -, -⟩ | hold := closed_cons.mp hk
        · exact absurd (heq.symm.trans hkey) hne
        · exact h.shut hold hd
    · intro k hk
      rw [hget] at hk
      split at hk
      · cases hk
      · rename_i hne
        refine (h.fresh hk).imp (fun hold => closed_cons.mpr (.inr hold)) fun hold => ?_
        rw [List.eq_nil_iff_forall_not_mem]
        intro r hr
        obtain ⟨heq, -⟩ | hr := hmem hr
        · exact hne heq
        · rw [hold] at hr
          cases hr
  · intro r hr
    obtain ⟨hle, -, hafter, hobserved⟩ := hreceipts r hr
    refine ⟨hle, ?_, hobserved⟩
    unfold Attempt.key
    dsimp only
    rw [hkey]
    exact hafter
  · intro hold hstate
    unfold Attempt.key at hold
    dsimp only at hold hstate
    rw [hkey] at hold
    exact absurd (hsample.2.1.trans (hshut hold)) hstate

theorem inv_skips (h : Inv st) (hs : Sound st.log) {s : Sample} {w : Writes} (hsample : w.sample = s)
    (hcursor : w.cursor = none) (hreceipt : w.receipt = none)
    (hnone : st.cursors.get (key s.resource) = none) :
    Inv (st.commits s w) ∧ Sound (st.commits s w).log := by
  have hcursors : (st.commits s w).cursors = st.cursors := by
    unfold State.commits
    dsimp only
    rw [hcursor]
  have hne : ∀ {k c}, st.cursors.get k = some c → ¬ key w.sample.resource = k := by
    rintro _ c hc rfl
    rw [hsample, hnone] at hc
    cases hc
  have hlast : ∀ {k c}, st.cursors.get k = some c →
      lastCommit k (st.commits s w).log = lastCommit k st.log := by
    intro k c hc
    unfold State.commits
    rw [lastCommit_cons, if_neg fun hk => hne hc hk.1]
  have hreceipts : ∀ k, receipts k (st.commits s w).log = receipts k st.log := by
    intro k
    unfold State.commits
    rw [receipts_cons]
    dsimp only
    rw [hreceipt, ite_self]
    rfl
  refine ⟨?_, hs.cons (fun r hr => ?_) fun _ _ => hreceipt⟩
  · constructor
    · intro k c hc
      rw [hcursors] at hc
      rw [hlast hc]
      exact h.wrote hc
    · intro k c hc hboot hstate
      rw [hcursors] at hc
      obtain ⟨a, o, ha, ho, hclock, hat, hfailed⟩ := h.memory hc hboot hstate
      rw [hlast hc]
      refine ⟨a, o, ha, ?_, hclock, hat, fun hsince => hfailed ?_⟩
      · unfold State.commits
        dsimp only
        rw [if_pos (.inl hcursor), InsertionMap.get_delete, if_neg, ho]
        rintro rfl
        exact hne hc (congrArg (fun x => key x.resource) hsample)
      · unfold State.commits at hsince
        rw [failedSince_cons, if_neg fun hk => hne hc hk.1, Bool.or_eq_true, decide_eq_true_eq] at hsince
        exact hsince.resolve_left (hne hc)
    · rw [hcursors]
      exact h.boots
    · rw [hcursors]
      intro k c hc
      rw [hreceipts]
      exact h.bound hc
    · intro k c hk hc
      rw [hcursors] at hc
      obtain ⟨heq, -, -⟩ | hold := closed_cons.mp hk
      · exact absurd heq (hne hc)
      · exact h.shut hold hc
    · rw [hcursors]
      intro k hk
      rw [hreceipts]
      exact (h.fresh hk).imp_left fun hold => closed_cons.mpr (.inr hold)
  · dsimp only at hr
    rw [hreceipt] at hr
    cases hr

theorem inv_capture (h : Inv st) (hs : Sound st.log) {s : Sample} {fails : Bool}
    (hcareful : Careful st (.capture s fails)) :
    Inv (st.capture s fails) ∧ Sound (st.capture s fails).log := by
  unfold State.capture
  dsimp only
  generalize hp : s.prepare (st.observations.get (key s.resource)) = p
  have hresource : p.resource = s.resource := hp ▸ prepare_resource s _
  have hstate : p.state = s.state := hp ▸ prepare_state s _
  have hkey : key s.resource = key p.resource := congrArg key hresource.symm
  cases hw : transaction st.boot st.pendingCount (st.cursors.get (key p.resource)) p with
  | none => exact inv_fails h hs p
  | some w =>
    dsimp only
    cases fails with
    | true => exact inv_fails h hs p
    | false =>
      rw [if_neg Bool.false_ne_true]
      cases hold : st.cursors.get (key p.resource) with
      | none =>
        rw [hold] at hw
        obtain ⟨hsample, ⟨hreceipt, hcursor⟩ | ⟨hnew, hcursor, r, hr, hle, hat, hempty⟩⟩ := transaction_first hw
        · exact inv_skips h hs hsample hcursor hreceipt hold
        · -- the resource is not closed, so this is its first receipt
          have hopen : ¬ Closed (key p.resource) st.log := by
            intro hclosed
            have hcond := hcareful (hkey ▸ hclosed) (hkey ▸ hold)
            rw [hp, ← hstate] at hcond
            exact hnew hcond
          have hnone := (h.fresh hold).resolve_left hopen
          have hc : cursor st.boot p p.at_ = cursor st.boot w.sample (cursor st.boot p p.at_).at_ := by
            rw [hsample]
            rfl
          refine inv_commits h hs hcursor hc ⟨by rw [hsample], by rw [hsample], by rw [hsample]⟩ (Int.le_refl _)
            (fun hclosed => absurd hclosed hopen) (fun q hq => ?_) ?_
          · rw [hr] at hq
            cases hq
            refine ⟨hle, hat, ?_, fun hconfirmed hlt => ?_⟩
            · rw [hnone]
              nofun
            · rw [hempty hconfirmed] at hlt
              exact absurd hlt (Int.lt_irrefl _)
          · rw [hnone]
            nofun
      | some old =>
        rw [hold] at hw
        obtain ⟨hsample, hopen, hcursor, hreceipt⟩ := transaction_next hw
        have hfields : w.sample.resource = p.resource ∧ w.sample.state = p.state ∧ w.sample.at_ = p.at_ ∧
            w.sample.uncertainReason = p.uncertainReason := by
          rw [hsample]
          split
          · exact ⟨rfl, rfl, rfl, rfl⟩
          · exact ⟨rfl, rfl, rfl, rfl⟩
        refine inv_commits h hs hcursor rfl ⟨hfields.1, hfields.2.1, hfields.2.2.1⟩ (Int.le_max_left _ _)
          (fun hclosed => hopen (h.shut hclosed hold)) (fun r hr => ?_) fun q hq =>
          Int.le_trans (h.bound hold q hq) (Int.le_max_right _ _)
        obtain ⟨hlow, hle, hup, hconfirms⟩ := hreceipt r hr
        refine ⟨hle, hup, fun q hq => Int.le_trans (h.bound hold q hq) hlow, fun hconfirmed _ => ?_⟩
        obtain ⟨d, hfrom, hto, hat, hreason, hboot, hkind⟩ := hconfirms hconfirmed
        have hliving : old.state ≠ .absent := by
          intro habsent
          obtain ⟨-, -, hactive, -⟩ | ⟨hpaused, -⟩ := hkind
          · rw [habsent] at hactive
            cases hactive
          · rw [habsent] at hpaused
            cases hpaused
        obtain ⟨l, hl, hlboot, hlat, hlquantity, hlincarnation, hlstate⟩ := h.wrote hold
        obtain ⟨l', o, hl', ho, hoclock, hoat, hofailed⟩ := h.memory hold hboot hliving
        rw [hl] at hl'
        cases hl'
        rw [hfields.2.2.2, ← hp, hkey, ho] at hreason
        obtain ⟨hforward, hbackward, hcertain⟩ := prepare_certain hreason
        have hclock : p.clock = s.clock ∧ p.at_ = s.at_ := by
          rw [← hp]
          cases st.observations.get (key s.resource) with
          | none => exact ⟨rfl, rfl⟩
          | some o => exact ⟨rfl, rfl⟩
        have hsame : Attempt.key ⟨w.sample, p.clock.getD 0, st.boot, true, w.receipt⟩ = key p.resource :=
          congrArg key hfields.1
        refine ⟨l, by rw [hsame]; exact hl, ?_, hlboot.trans hboot, ?_, ?_, ?_, ?_⟩
        · rw [hsame]
          by_contra hsince
          rw [hofailed (Bool.not_eq_false _ ▸ hsince)] at hcertain
          cases hcertain
        · unfold SteadyClock
          dsimp only
          rw [hfields.2.2.1, hclock.1, hclock.2, ← hoat, ← hoclock]
          exact ⟨hforward, hbackward⟩
        · exact Int.le_trans hlat hlow
        · rw [Int.max_eq_left (hfields.2.2.1 ▸ hat)] at hup
          exact hfields.2.2.1 ▸ hup
        · rw [hlquantity, hlincarnation, hlstate, ← hfrom, ← hto]
          exact hkind.imp_left fun hk => ⟨hk.1.symm, hk.2.1.symm, hk.2.2⟩

theorem inv_acknowledge (h : Inv st) (rows : List (Nat × Receipt)) : Inv (st.acknowledge rows) := by
  unfold State.acknowledge
  split
  · exact h
  · rename_i pending count _
    have hsome : ∀ {k c}, (if count = 0 then st.cursors.filter fun _ c => c.state ≠ .absent
        else st.cursors).get k = some c → st.cursors.get k = some c := by
      intro k c hc
      split at hc
      · exact InsertionMap.get_filter_some hc
      · exact hc
    constructor
    · exact fun hc => h.wrote (hsome hc)
    · exact fun hc => h.memory (hsome hc)
    · exact fun hc => h.boots (hsome hc)
    · exact fun hc => h.bound (hsome hc)
    · exact fun hk hc => h.shut hk (hsome hc)
    · intro k hk
      cases hc : st.cursors.get k with
      | none => exact h.fresh hc
      | some c =>
        -- a cursor that was collected is that of a closed resource
        left
        obtain ⟨a, ha, -, -, -, -, hstate⟩ := h.wrote hc
        obtain ⟨hin, hkey, hcommitted⟩ := lastCommit_mem ha
        refine ⟨a, hin, hkey, hcommitted, hstate.trans ?_⟩
        dsimp only at hk
        split at hk
        · by_contra hstate
          rw [InsertionMap.get_eq_none] at hk
          refine hk (List.mem_map.mpr ⟨(k, c), List.mem_filter.mpr ⟨InsertionMap.mem_entries.mpr hc, ?_⟩, rfl⟩)
          exact decide_eq_true hstate
        · rw [hc] at hk
          cases hk

theorem inv_restart (h : Inv st) : Inv st.restart where
  wrote hc := h.wrote hc
  memory hc hboot := by
    have hle := h.boots hc
    have heq : _ = st.boot + 1 := hboot
    omega
  boots hc := Nat.le_succ_of_le (h.boots hc)
  bound hc := h.bound hc
  shut hk hc := h.shut hk hc
  fresh hk := h.fresh hk

def Held (st : State) : Prop := ∀ n r, st.pending.get n = some r → ∃ a ∈ st.log, a.receipt = some r

theorem remove_some {rows : List (Nat × Receipt)} {m m' : InsertionMap Nat Receipt × Nat}
    (h : State.remove rows m = some m') {n : Nat} {r : Receipt} (hr : m'.1.get n = some r) :
    m.1.get n = some r := by
  induction rows generalizing m with
  | nil =>
    cases h
    exact hr
  | cons row rows ih =>
    unfold State.remove at h
    split at h
    · exact ih h
    · split at h
      · cases h
      · exact InsertionMap.get_delete_some (ih h)

theorem held_fails (h : Held st) (s : Sample) : Held (st.fails s) := by
  intro n r hr
  obtain ⟨a, ha, hreceipt⟩ := h n r hr
  exact ⟨a, List.mem_cons_of_mem _ ha, hreceipt⟩

theorem held_capture (h : Held st) (s : Sample) (fails : Bool) : Held (st.capture s fails) := by
  unfold State.capture
  dsimp only
  split
  · exact held_fails h _
  · rename_i w _
    split
    · exact held_fails h _
    · intro n r hr
      unfold State.commits at hr ⊢
      dsimp only at hr ⊢
      split at hr
      · rename_i q hq
        rw [InsertionMap.get_set] at hr
        split at hr
        · cases hr
          exact ⟨_, List.mem_cons_self, hq⟩
        · obtain ⟨a, ha, hreceipt⟩ := h n r hr
          exact ⟨a, List.mem_cons_of_mem _ ha, hreceipt⟩
      · obtain ⟨a, ha, hreceipt⟩ := h n r hr
        exact ⟨a, List.mem_cons_of_mem _ ha, hreceipt⟩

theorem held_acknowledge (h : Held st) (rows : List (Nat × Receipt)) : Held (st.acknowledge rows) := by
  intro n r hr
  unfold State.acknowledge at hr ⊢
  split at hr
  · exact h n r hr
  · rename_i hsome
    exact h n r (remove_some hsome hr)

theorem sound_nil : Sound [] where
  ordered _ := ⟨.nil, nofun⟩
  truthful _ _ h := absurd (List.suffix_nil.mp h) (List.cons_ne_nil _ _)
  final _ _ h := absurd (List.suffix_nil.mp h) (List.cons_ne_nil _ _)

theorem inv_init : Inv {} where
  wrote h := nomatch (show none = some _ from h)
  memory h := nomatch (show none = some _ from h)
  boots h := nomatch (show none = some _ from h)
  bound h := nomatch (show none = some _ from h)
  shut _ h := nomatch (show none = some _ from h)
  fresh _ := .inr rfl

theorem inv_act {isUuid : String → Bool} {a : Action} (h : Inv st ∧ Sound st.log ∧ Held st)
    (hcareful : Careful st a) (hact : act isUuid st a = some t) : Inv t ∧ Sound t.log ∧ Held t := by
  obtain ⟨hinv, hsound, hheld⟩ := h
  cases a with
  | capture s fails =>
    unfold act at hact
    obtain ⟨-, rfl⟩ := ite_some hact
    obtain ⟨hinv, hsound⟩ := inv_capture hinv hsound hcareful
    exact ⟨hinv, hsound, held_capture hheld s fails⟩
  | acknowledge rows =>
    cases hact
    refine ⟨inv_acknowledge hinv rows, ?_, held_acknowledge hheld rows⟩
    unfold State.acknowledge
    split
    · exact hsound
    · exact hsound
  | restart =>
    cases hact
    exact ⟨inv_restart hinv, hsound, hheld⟩

/-- In every careful run the receipts of each resource follow each other without overlap, what they
confirm was observed from start to end, and after an absent capture only absent ones give receipts. -/
theorem receipts_sound {isUuid : String → Bool} {as : List Action}
    (h : Reach ((system isUuid).guard Careful) as st) : Sound st.log ∧ Held st := by
  refine (h.invariant (fun st => Inv st ∧ Sound st.log ∧ Held st) ?_ ?_).2
  · rintro _ rfl
    exact ⟨inv_init, sound_nil, nofun⟩
  · rintro s a t hinv ⟨hcareful, hact⟩
    exact inv_act hinv hcareful hact

/-! ## A closed resource that is accounted again -/

instance (k : String) (log : List Attempt) : Decidable (Closed k log) :=
  inferInstanceAs (Decidable (∃ a ∈ log, a.key = k ∧ a.committed = true ∧ a.sample.state = .absent))

instance (st : State) : DecidablePred (Careful st)
  | .capture s _ => inferInstanceAs (Decidable (Closed (key s.resource) st.log →
      st.cursors.get (key s.resource) = none → s.state.active = false ∧
        (s.prepare (st.observations.get (key s.resource))).coverageStartedAt = 0))
  | .acknowledge _ => inferInstanceAs (Decidable True)
  | .restart => inferInstanceAs (Decidable True)

/-- One observation of a compute resource, `seconds` after its first. -/
def sampleAfter (seconds : Int) (state : ResourceState) : Sample :=
  { resource := { kind := "compute", resourceId := "r", tenantId := "t", workspaceId := "w" }
    quantity := { kind := "compute", cpuMillis := 2000 }, incarnation := "vm-1", state := state
    at_ := 1800000000000 + seconds * 1000, clock := some (seconds * 1000000000) }

theorem receipts_sound_twice : ∃ st, Reach ((system fun _ => true).guard Careful)
      [.capture (sampleAfter 0 .running) false, .capture (sampleAfter 30 .running) false] st ∧
    (receipts "compute:r" st.log).length = 2 ∧ Sound st.log ∧ Held st := by
  have hrun : ([Action.capture (sampleAfter 0 .running) false, .capture (sampleAfter 30 .running) false].foldlM
      (guarded (act fun _ => true) Careful) {}).map (fun st => (receipts "compute:r" st.log).length) = some 2 := by
    decide +kernel
  obtain ⟨st, hst, htwo⟩ := Option.map_eq_some_iff.mp hrun
  have hreach := Reach.guarded (S := system fun _ => true) (fun _ _ _ h => h) rfl hst
  exact ⟨st, hreach, htwo, receipts_sound hreach⟩

def observedAndGone : List Action :=
  [.capture (sampleAfter 0 .running) false, .capture (sampleAfter 30 .absent) false]

/-- Both receipts are delivered, so that the cursor goes, and an observation from before comes late. -/
def lateObservation : List Action :=
  observedAndGone ++
    [Action.acknowledge (((observedAndGone.foldlM (act fun _ => true) {}).map fun st => st.pending.entries).getD []),
      .capture (sampleAfter 20 .running) false]

theorem receipts_after_collection : ¬ ∀ (isUuid : String → Bool) as st, Reach (system isUuid) as st →
    Sound st.log := by
  intro hclaim
  have hrun : (lateObservation.foldlM (act fun _ => true) {}).map (fun st =>
      match st.log with
      | a :: older => decide (Closed a.key older ∧ a.sample.state ≠ .absent ∧ a.receipt ≠ none)
      | [] => false) = some true := by decide +kernel
  obtain ⟨st, hst, hlate⟩ := Option.map_eq_some_iff.mp hrun
  have hreach := (Reach.init rfl).foldlM (S := system fun _ => true) (fun _ _ _ h => h) _ hst
  split at hlate
  · rename_i a older hlog
    obtain ⟨hclosed, hstate, hreceipt⟩ := of_decide_eq_true hlate
    have hsuffix : a :: older <:+ st.log := hlog ▸ List.suffix_refl _
    exact hreceipt ((hclaim _ _ st hreach).final a older hsuffix hclosed hstate)
  · cases hlate

end Source
end Accounting
end PiCloud
