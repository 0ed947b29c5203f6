import Mathlib.Data.Char
import Mathlib.Data.List.Lex
import PiCloud.Lib.History
import PiCloud.Gateway.MeteringEvents
import PiCloud.Lib.InsertionMap
import PiCloud.Lib.Paging

/-!
# Gateway.MeteringJournal

The model metering journal: what is accounted to an admitted request is kept until the receiver has
acknowledged it, over crashes too.

* `Journal`, `putEvent`, `admitInvocation`, `append`, `acknowledge`, `openJournal`: the transactions.
* `State`, `settle`, `retainProducer`: the journal with the captures of the requests under way.
* `Careful`: no admission while an interruption is pending, and no request that settles another.
* `Inv`: what holds in every state that such steps lead to.
* `journal_reopens`, `journal_stuck`: what is kept, and a run after which the journal never opens.
-/

namespace PiCloud
namespace Gateway
namespace Metering

open Lib

/-! ## Transactions -/

/-- An admitted request; `admission` says which of all admissions it was. -/
structure Active where
  context : Attribution
  admission : Nat
deriving DecidableEq

structure Journal where
  pending : InsertionMap Text Text := {}
  active : InsertionMap Text Active := {}
  /-- `pending-bytes` -/
  bytes : Int := 0

inductive JournalError where
  | tooLarge
  | identityConflict
  | capacity
  | alreadyAdmitted
  | acknowledgementChanged
deriving DecidableEq

def putEvent (j : Journal) (e : Event) : Except JournalError Journal :=
  if 8192 < size e.marshal then .error .tooLarge
  else
    match j.pending.get e.key with
    | some previous => if e.marshal ≠ previous then .error .identityConflict else .ok j
    | none => .ok { j with
        pending := j.pending.set e.key e.marshal
        bytes := j.bytes + (size e.marshal + size e.key : Nat) }

def admitInvocation (capacity : Int) (j : Journal) (ctx : Attribution) (admission : Nat) :
    Except JournalError Journal :=
  if capacity < j.bytes + (j.active.size + 1 : Nat) * 32768 then .error .capacity
  else if j.active.get ctx.invocationId ≠ none then .error .alreadyAdmitted
  else putEvent { j with active := j.active.set ctx.invocationId ⟨ctx, admission⟩ } (started ctx)

def append (j : Journal) (e : Event) : Except JournalError Journal :=
  match putEvent j e with
  | .error error => .error error
  | .ok j =>
    if e.kind = .finished then .ok { j with active := j.active.delete e.context.invocationId }
    else .ok j

def batch (j : Journal) : List (Text × Text) := (sortBy Prod.fst j.pending.entries).take 128

def acknowledgeOne (j : Journal) (item : Text × Text) : Except JournalError Journal :=
  match j.pending.get item.1 with
  | none => .ok j
  | some raw =>
    if raw ≠ item.2 then .error .acknowledgementChanged
    else .ok { j with
        pending := j.pending.delete item.1
        bytes := j.bytes - (size raw + size item.1 : Nat) }

def acknowledge (j : Journal) (batch : List (Text × Text)) : Except JournalError Journal :=
  batch.foldlM acknowledgeOne j

def admitted (j : Journal) : List (Text × Active) := sortBy Prod.fst j.active.entries

/-- An admitted request is never replayed: it is interrupted. -/
def openJournal (j : Journal) (now : Text) : Except JournalError Journal :=
  match (admitted j).foldlM (fun j e => putEvent j (interrupted e.2.context now)) j with
  | .error error => .error error
  | .ok j => .ok { j with active := {} }

/-! ## Requests -/

/-- `requestCapture`; `admission` is the last one that it made. -/
structure Capture where
  context : Attribution
  admission : Nat
  producers : Nat := 0
  finished : Option Event := none
  settled : Bool := false

/-- An admission, and the terminal events that were recorded for it. -/
structure Admission where
  context : Attribution
  terminals : List Text := []

def Admission.ended (a : Admission) (raw : Text) : Admission :=
  { a with terminals := if raw ∈ a.terminals then a.terminals else raw :: a.terminals }

structure State where
  journal : Journal := {}
  opened : Bool := false
  captures : List Capture := []
  captureFailures : Nat := 0
  /-- All admissions, oldest first. -/
  admissions : List Admission := []
  /-- All events that were taken in, with their keys. -/
  recorded : List (Text × Text) := []
  acknowledged : List (Text × Text) := []

namespace State

variable (capacity : Int) (s : State)

/-- A request comes in. -/
def request (ctx : Attribution) : State :=
  if !s.opened then s
  else
    match admitInvocation capacity s.journal ctx s.admissions.length with
    | .error _ => s
    | .ok journal => { s with
        journal := journal
        captures := s.captures ++ [{ context := ctx, admission := s.admissions.length }]
        admissions := s.admissions ++ [{ context := ctx }]
        recorded := ((started ctx).key, (started ctx).marshal) :: s.recorded }

/-- `settle`, of a capture `c` at `i` -/
def settle (i : Nat) (c : Capture) : State :=
  match c.finished with
  | none => { s with captures := s.captures.set i c }
  | some e =>
    if c.settled || c.producers ≠ 0 then { s with captures := s.captures.set i c }
    else
      match append s.journal e with
      | .error _ => { s with
          captures := s.captures.set i c, captureFailures := s.captureFailures + 1 }
      | .ok journal => { s with
          journal := journal
          captures := s.captures.set i { c with settled := true }
          admissions := s.admissions.modify c.admission fun a => a.ended e.marshal
          recorded := (e.key, e.marshal) :: s.recorded }

/-- The request has been answered. -/
def finish (i : Nat) (c : Capture) (occurredAt : Text) (statusCode : Nat) (cancelled : Bool) : State :=
  let e : Event :=
    { context := c.context, kind := .finished, occurredAt := occurredAt, statusCode := statusCode,
      cancelled := some cancelled }
  s.settle i { c with finished := c.finished.or (some e) }

/-- `RetainProducer`: a late one restores the admission. -/
def retainProducer (i : Nat) (c : Capture) : State :=
  if c.settled then
    let s := { s with captureFailures := s.captureFailures + 1 }
    match admitInvocation capacity s.journal c.context s.admissions.length with
    | .error _ => { s with
        captures := s.captures.set i { c with settled := false, producers := c.producers + 1 } }
    | .ok journal => { s with
        journal := journal
        captures := s.captures.set i
          { c with settled := false, producers := c.producers + 1, admission := s.admissions.length }
        admissions := s.admissions ++ [{ context := c.context }]
        recorded := ((started c.context).key, (started c.context).marshal) :: s.recorded }
  else { s with captures := s.captures.set i { c with producers := c.producers + 1 } }

/-- `AttemptStarted` and `Record`, between their retaining and their releasing. -/
def observe (e : Event) : State :=
  match append s.journal e with
  | .error _ => { s with captureFailures := s.captureFailures + 1 }
  | .ok journal => { s with journal := journal, recorded := (e.key, e.marshal) :: s.recorded }

/-- The service opens the journal, unless it has. -/
def start (now : Text) : State :=
  if s.opened then s
  else
    match openJournal s.journal now with
    | .error _ => s
    | .ok journal => { s with
        journal := journal
        opened := true
        admissions := s.admissions.mapIdx fun i a =>
          match (admitted s.journal).find? fun e => e.2.admission = i with
          | some e => a.ended (interrupted e.2.context now).marshal
          | none => a
        recorded := (admitted s.journal).map (fun e =>
          ((interrupted e.2.context now).key, (interrupted e.2.context now).marshal)) ++ s.recorded }

def deliver (items : List (Text × Text)) : State :=
  if !s.opened then s
  else
    match acknowledge s.journal items with
    | .error _ => s
    | .ok journal => { s with
        journal := journal
        acknowledged :=
          items.filter (fun item => s.journal.pending.get item.1 = some item.2) ++ s.acknowledged }

end State

inductive Action where
  | request (ctx : Attribution)
  | finish (i : Nat) (occurredAt : Text) (statusCode : Nat) (cancelled : Bool)
  | retain (i : Nat)
  | release (i : Nat)
  | attempt (i : Nat) (executionId occurredAt : Text)
  | usage (i : Nat) (executionId occurredAt : Text) (fact : Fact)
  | acknowledge (items : List (Text × Text))
  | start (now : Text)
  | crash

def act (uuid : UuidParser) (capacity : Int) (s : State) : Action → Option State
  | .request ctx => if ctx.valid uuid = true then some (s.request capacity ctx) else none
  | .finish i occurredAt statusCode cancelled =>
    (s.captures[i]?).map fun c => s.finish i c occurredAt statusCode cancelled
  | .retain i => (s.captures[i]?).map fun c => s.retainProducer capacity i c
  | .release i =>
    match s.captures[i]? with
    | some c => if c.producers = 0 then none else some (s.settle i { c with producers := c.producers - 1 })
    | none => none
  | .attempt i executionId occurredAt =>
    match s.captures[i]? with
    | some c =>
      if c.producers = 0 then none
      else some (s.observe
        { context := c.context, kind := .attempt, occurredAt := occurredAt, executionId := executionId })
    | none => none
  | .usage i executionId occurredAt fact =>
    match s.captures[i]? with
    | some c =>
      if c.producers = 0 then none
      else some (s.observe
        { context := c.context, kind := .usage, occurredAt := occurredAt, executionId := executionId,
          usage := some fact })
    | none => none
  | .acknowledge items => some (s.deliver items)
  | .start now => if isTimestamp now = true then some (s.start now) else none
  -- the transactions of the database are kept, what was in memory is not
  | .crash => some { s with opened := false, captures := [] }

def system (uuid : UuidParser) (capacity : Int) : System State Action where
  init s := s = {}
  step s a t := act uuid capacity s a = some t

/-! ## What goes wrong -/

def Delivered (s : State) (ctx : Attribution) : Prop := s.journal.pending.get (interrupted ctx []).key = none

def Own (s : State) (c : Capture) : Prop :=
  ∀ a, s.journal.active.get c.context.invocationId = some a → a.admission = c.admission

/-- No invocation is admitted, by a request or by a late producer, while its interruption is pending;
and no capture settles while its invocation is active under a later admission. -/
def Careful (s : State) : Action → Prop
  | .request ctx => Delivered s ctx
  | .retain i => ∀ c, s.captures[i]? = some c → c.settled = true → Delivered s c.context
  | .finish i _ _ _ => ∀ c, s.captures[i]? = some c → c.settled = false → c.producers = 0 → Own s c
  | .release i =>
    ∀ c, s.captures[i]? = some c → c.settled = false → c.finished ≠ none → c.producers = 1 → Own s c
  | _ => True

/-! ## What the transactions do -/

def Exact (j : Journal) : Prop := j.bytes = j.pending.weight fun e => size e.2 + size e.1

/-- Only the events `new` have become pending, and nothing else has changed. -/
structure Puts (j : Journal) (new : List (Text × Text)) (t : Journal) : Prop where
  active : t.active = j.active
  kept : ∀ {k raw}, j.pending.get k = some raw → t.pending.get k = some raw
  there : ∀ r ∈ new, t.pending.get r.1 = some r.2
  only : ∀ {k}, t.pending.get k ≠ none → j.pending.get k ≠ none ∨ k ∈ new.map Prod.fst
  exact : Exact j → Exact t

theorem Puts.refl (j : Journal) : Puts j [] j := ⟨rfl, id, nofun, .inl, id⟩

theorem Puts.trans {j t u : Journal} {new more : List (Text × Text)} (h : Puts j new t)
    (h' : Puts t more u) : Puts j (new ++ more) u where
  active := h'.active.trans h.active
  kept hk := h'.kept (h.kept hk)
  there r hr := by
    obtain hr | hr := List.mem_append.mp hr
    · exact h'.kept (h.there r hr)
    · exact h'.there r hr
  only hk := by
    rw [List.map_append, List.mem_append]
    obtain hk | hk := h'.only hk
    · exact (h.only hk).imp_right .inl
    · exact .inr (.inr hk)
  exact hj := h'.exact (h.exact hj)

theorem putEvent_puts {j t : Journal} {e : Event} (h : putEvent j e = .ok t) :
    Puts j [(e.key, e.marshal)] t := by
  unfold putEvent at h
  split at h
  · cases h
  · split at h
    · rename_i previous hprevious
      split at h
      · cases h
      · rename_i hsame
        cases h
        refine ⟨rfl, id, fun r hr => ?_, .inl, id⟩
        rw [List.mem_singleton.mp hr, not_not.mp hsame]
        exact hprevious
    · rename_i hnone
      cases h
      refine ⟨rfl, fun {k raw} hk => ?_, fun r hr => ?_, fun {k} hk => ?_, fun hj => ?_⟩
      · have hne : k ≠ e.key := by
          rintro rfl
          rw [hnone] at hk
          cases hk
        exact (InsertionMap.get_set_ne _ _ hne).trans hk
      · rw [List.mem_singleton.mp hr]
        exact InsertionMap.get_set_self _ _ _
      · by_cases hkey : k = e.key
        · exact .inr (List.mem_singleton.mpr hkey)
        · dsimp only at hk
          rw [InsertionMap.get_set_ne _ _ hkey] at hk
          exact .inl hk
      · unfold Exact at hj ⊢
        dsimp only
        rw [InsertionMap.weight_set _ _ _ hnone, hj]
        push_cast
        rfl

theorem putEvent_ok {j : Journal} {e : Event} (hsize : size e.marshal ≤ 8192)
    (hnone : j.pending.get e.key = none) : ∃ t, putEvent j e = .ok t := by
  unfold putEvent
  rw [if_neg (Nat.not_lt.mpr hsize), hnone]
  exact ⟨_, rfl⟩

/-- `t` is `j` with one more active request, which has started. -/
structure Admits (j : Journal) (ctx : Attribution) (admission : Nat) (t : Journal) : Prop where
  free : j.active.get ctx.invocationId = none
  active : t.active = j.active.set ctx.invocationId ⟨ctx, admission⟩
  puts : Puts { j with active := t.active } [((started ctx).key, (started ctx).marshal)] t

theorem admitInvocation_admits {capacity : Int} {j t : Journal} {ctx : Attribution} {admission : Nat}
    (h : admitInvocation capacity j ctx admission = .ok t) : Admits j ctx admission t := by
  unfold admitInvocation at h
  split at h
  · cases h
  · split at h
    · cases h
    · rename_i hfree
      have hputs := putEvent_puts h
      refine ⟨not_not.mp hfree, hputs.active, ?_⟩
      rw [hputs.active]
      exact hputs

theorem append_puts {j t : Journal} {e : Event} (h : append j e = .ok t) :
    ∃ u, Puts j [(e.key, e.marshal)] u ∧
      t = if e.kind = .finished then { u with active := u.active.delete e.context.invocationId } else u := by
  unfold append at h
  cases hput : putEvent j e with
  | error error =>
    rw [hput] at h
    cases h
  | ok u =>
    rw [hput] at h
    refine ⟨u, putEvent_puts hput, ?_⟩
    dsimp only at h
    split at h
    · cases h
      rw [if_pos ‹_›]
    · cases h
      rw [if_neg ‹_›]

/-- What an acknowledgement leaves. -/
structure Drops (j : Journal) (items : List (Text × Text)) (t : Journal) : Prop where
  active : t.active = j.active
  kept : ∀ {k raw}, j.pending.get k = some raw → t.pending.get k = some raw ∨ (k, raw) ∈ items
  only : ∀ {k raw}, t.pending.get k = some raw → j.pending.get k = some raw
  exact : Exact j → Exact t

theorem acknowledgeOne_drops {j t : Journal} {item : Text × Text} (h : acknowledgeOne j item = .ok t) :
    Drops j [item] t := by
  unfold acknowledgeOne at h
  split at h
  · cases h
    exact ⟨rfl, .inl, id, id⟩
  · rename_i raw hraw
    split at h
    · cases h
    · rename_i hsame
      cases h
      have hitem : item.2 = raw := (not_not.mp hsame).symm
      refine ⟨rfl, fun {k r} hk => ?_, InsertionMap.get_delete_some, fun hj => ?_⟩
      · by_cases hkey : k = item.1
        · subst hkey
          rw [hraw] at hk
          cases hk
          exact .inr (List.mem_singleton.mpr (Prod.ext rfl hitem.symm))
        · dsimp only
          rw [InsertionMap.get_delete, if_neg hkey]
          exact .inl hk
      · have hweight := InsertionMap.weight_delete (fun e : Text × Text => size e.2 + size e.1) hraw
        unfold Exact at hj ⊢
        dsimp only at hweight ⊢
        omega

theorem acknowledge_drops {j t : Journal} {items : List (Text × Text)}
    (h : acknowledge j items = .ok t) : Drops j items t := by
  unfold acknowledge at h
  induction items generalizing j with
  | nil =>
    cases h
    exact ⟨rfl, .inl, id, id⟩
  | cons item items ih =>
    rw [List.foldlM_cons] at h
    cases hone : acknowledgeOne j item with
    | error error =>
      rw [hone] at h
      cases h
    | ok u =>
      rw [hone] at h
      have hfirst := acknowledgeOne_drops hone
      have hrest := ih h
      refine ⟨hrest.active.trans hfirst.active, fun hk => ?_, fun hk => hfirst.only (hrest.only hk),
        fun hj => hrest.exact (hfirst.exact hj)⟩
      obtain hk | hk := hfirst.kept hk
      · exact (hrest.kept hk).imp_right (List.mem_cons_of_mem _)
      · exact .inr (List.mem_cons.mpr (.inl (List.mem_singleton.mp hk)))

def interruptions (now : Text) (l : List (Text × Active)) : List (Text × Text) :=
  l.map fun e => ((interrupted e.2.context now).key, (interrupted e.2.context now).marshal)

theorem interrupt_puts {j t : Journal} {now : Text} {l : List (Text × Active)}
    (h : l.foldlM (fun j e => putEvent j (interrupted e.2.context now)) j = .ok t) :
    Puts j (interruptions now l) t := by
  induction l generalizing j with
  | nil =>
    cases h
    exact .refl _
  | cons e l ih =>
    rw [List.foldlM_cons] at h
    cases hone : putEvent j (interrupted e.2.context now) with
    | error error =>
      rw [hone] at h
      cases h
    | ok u =>
      rw [hone] at h
      exact (putEvent_puts hone).trans (ih h)

theorem interrupt_ok {uuid : UuidParser} {j : Journal} {now : Text} (hnow : isTimestamp now = true)
    {l : List (Text × Active)} (hids : (l.map fun e => e.2.context.invocationId).Nodup)
    (hvalid : ∀ e ∈ l, e.2.context.valid uuid = true)
    (hnone : ∀ e ∈ l, j.pending.get (interrupted e.2.context now).key = none) :
    ∃ t, l.foldlM (fun j e => putEvent j (interrupted e.2.context now)) j = .ok t := by
  induction l generalizing j with
  | nil => exact ⟨j, rfl⟩
  | cons e l ih =>
    rw [List.map_cons, List.nodup_cons] at hids
    obtain ⟨u, hu⟩ := putEvent_ok (interrupted_fits (hvalid e List.mem_cons_self) hnow)
      (hnone e List.mem_cons_self)
    have hputs := putEvent_puts hu
    have hleft : ∀ f ∈ l, u.pending.get (interrupted f.2.context now).key = none := by
      intro f hf
      by_contra hsome
      obtain hin | hin := hputs.only hsome
      · exact hin (hnone f (List.mem_cons_of_mem _ hf))
      · have hkey := List.mem_singleton.mp hin
        rw [key_of_empty rfl, key_of_empty rfl] at hkey
        have hsame : f.2.context.invocationId = e.2.context.invocationId := (kind_of_suffix hkey).1
        exact hids.1 (hsame ▸ List.mem_map_of_mem hf)
    obtain ⟨t, ht⟩ := ih hids.2 (fun f hf => hvalid f (List.mem_cons_of_mem _ hf)) hleft
    refine ⟨t, ?_⟩
    rw [List.foldlM_cons, hu]
    exact ht

/-! ## The invariant -/

/-- The admission `i` is the one under which its invocation is active. -/
def Open (s : State) (i : Nat) (ctx : Attribution) : Prop :=
  ∃ e, s.journal.active.get ctx.invocationId = some e ∧ e.admission = i

def Ended (s : State) (a : Admission) : Prop :=
  ∃ e : Event, a.terminals = [e.marshal] ∧ (e.kind = .finished ∨ e.kind = .interrupted) ∧
    e.context = a.context ∧ (e.key, e.marshal) ∈ s.recorded

/-- What holds of a capture: its admission is open, or ended with its own event. -/
structure Tracked (uuid : UuidParser) (s : State) (c : Capture) : Prop where
  valid : c.context.valid uuid = true
  finished : ∀ {e : Event}, c.finished = some e → e.kind = .finished ∧ e.context = c.context
  admission : ∃ a, s.admissions[c.admission]? = some a ∧ a.context = c.context ∧
    (Open s c.admission c.context ∨ ∃ e, c.finished = some e ∧ a.terminals = [e.marshal])

structure Inv (uuid : UuidParser) (s : State) : Prop where
  exact : Exact s.journal
  kept : ∀ r ∈ s.recorded, s.journal.pending.get r.1 = some r.2 ∨ r ∈ s.acknowledged
  active : ∀ {id : Text} {e : Active}, s.journal.active.get id = some e → e.context.invocationId = id ∧
    e.context.valid uuid = true ∧ s.admissions[e.admission]? = some { context := e.context }
  quiet : ∀ {id : Text} {e : Active}, s.journal.active.get id = some e → Delivered s e.context
  begun : ∀ {i : Nat} {a : Admission}, s.admissions[i]? = some a →
    ((started a.context).key, (started a.context).marshal) ∈ s.recorded
  ended : ∀ {i : Nat} {a : Admission}, s.admissions[i]? = some a → Open s i a.context ∨ Ended s a
  captures : ∀ c ∈ s.captures, Tracked uuid s c
  distinct : (s.captures.map Capture.admission).Nodup
  closed : s.opened = false → s.captures = []

variable {uuid : UuidParser} {s t : State}

theorem accepts_of_valid {a : Attribution} (h : a.valid uuid = true) :
    uuid.accepts a.invocationId = true := by
  unfold Attribution.valid at h
  simp only [Bool.and_eq_true] at h
  exact h.1.1.1.1.1.1.1.1.1.1.1.1.1

theorem not_interrupted {a : Attribution} (ha : a.valid uuid = true) {e : Event}
    (he : e.context.valid uuid = true) (hkind : e.kind ≠ .interrupted) : (interrupted a []).key ≠ e.key :=
  fun h => hkind (key_interrupted (accepts_of_valid ha) (accepts_of_valid he) h.symm).2

theorem Puts.delivered {j t : Journal} {e : Event} (hputs : Puts j [(e.key, e.marshal)] t)
    {a : Attribution} (ha : a.valid uuid = true) (he : e.context.valid uuid = true)
    (hkind : e.kind ≠ .interrupted) (h : j.pending.get (interrupted a []).key = none) :
    t.pending.get (interrupted a []).key = none := by
  by_contra hsome
  obtain hin | hin := hputs.only hsome
  · exact hin h
  · exact not_interrupted ha he hkind (List.mem_singleton.mp hin)

theorem Puts.keeps {j t : Journal} {new : List (Text × Text)} (hputs : Puts j new t)
    {recorded acknowledged : List (Text × Text)}
    (h : ∀ r ∈ recorded, j.pending.get r.1 = some r.2 ∨ r ∈ acknowledged) :
    ∀ r ∈ new ++ recorded, t.pending.get r.1 = some r.2 ∨ r ∈ acknowledged := by
  intro r hr
  obtain hr | hr := List.mem_append.mp hr
  · exact .inl (hputs.there r hr)
  · exact (h r hr).imp_left hputs.kept

theorem Inv.setCapture (h : Inv uuid s) {i : Nat} {c d : Capture} (hc : s.captures[i]? = some c)
    (hadmission : d.admission = c.admission) (hd : Tracked uuid s d) :
    Inv uuid { s with captures := s.captures.set i d } where
  exact := h.exact
  kept := h.kept
  active := h.active
  quiet := h.quiet
  begun := h.begun
  ended := h.ended
  captures f hf := by
    obtain hf | rfl := List.mem_or_eq_of_mem_set hf
    · have := h.captures f hf
      exact ⟨this.valid, this.finished, this.admission⟩
    · exact ⟨hd.valid, hd.finished, hd.admission⟩
  distinct := by
    dsimp only
    have hsame : (s.captures.map Capture.admission)[i]? = some d.admission := by
      rw [List.getElem?_map, hc, hadmission]
      rfl
    obtain ⟨hi, hget⟩ := List.getElem?_eq_some_iff.mp hsame
    rw [List.map_set, ← hget, List.set_getElem_self]
    exact h.distinct
  closed ho := by
    rw [h.closed ho] at hc
    cases hc

theorem Inv.failures (h : Inv uuid s) (n : Nat) : Inv uuid { s with captureFailures := n } where
  exact := h.exact
  kept := h.kept
  active := h.active
  quiet := h.quiet
  begun := h.begun
  ended := h.ended
  captures c hc := ⟨(h.captures c hc).valid, (h.captures c hc).finished, (h.captures c hc).admission⟩
  distinct := h.distinct
  closed := h.closed

theorem Inv.admits (h : Inv uuid s) {ctx : Attribution} (hvalid : ctx.valid uuid = true)
    (hdelivered : Delivered s ctx) {journal : Journal}
    (hadmits : Admits s.journal ctx s.admissions.length journal) {captures : List Capture}
    (hcaptures : ∀ d ∈ captures, d ∈ s.captures ∨ d.context = ctx ∧ d.admission = s.admissions.length ∧
      ∀ {e}, d.finished = some e → e.kind = .finished ∧ e.context = ctx)
    (hdistinct : (captures.map Capture.admission).Nodup) (hopen : s.opened = true) :
    Inv uuid { s with
      journal := journal
      captures := captures
      admissions := s.admissions ++ [{ context := ctx }]
      recorded := ((started ctx).key, (started ctx).marshal) :: s.recorded } := by
  have hold : ∀ {i : Nat} {a : Admission}, s.admissions[i]? = some a →
      (s.admissions ++ [({ context := ctx } : Admission)])[i]? = some a := by
    intro i a hi
    rw [List.getElem?_append_left (List.getElem?_eq_some_iff.mp hi).1, hi]
  have hnew : (s.admissions ++ [({ context := ctx } : Admission)])[s.admissions.length]? =
      some { context := ctx } := by
    rw [List.getElem?_append_right (Nat.le_refl _), Nat.sub_self]
    rfl
  have hopened : ∀ {i : Nat} {a : Attribution}, Open s i a →
      ∃ e, journal.active.get a.invocationId = some e ∧ e.admission = i := by
    rintro i a ⟨e, he, hi⟩
    have hne : a.invocationId ≠ ctx.invocationId := by
      intro heq
      rw [heq, hadmits.free] at he
      cases he
    exact ⟨e, by rw [hadmits.active, InsertionMap.get_set_ne _ _ hne]; exact he, hi⟩
  have hself : ∃ e, journal.active.get ctx.invocationId = some e ∧ e.admission = s.admissions.length :=
    ⟨_, by rw [hadmits.active, InsertionMap.get_set_self], rfl⟩
  have hactive : ∀ {id : Text} {e : Active}, journal.active.get id = some e →
      (id = ctx.invocationId ∧ e = ⟨ctx, s.admissions.length⟩) ∨ s.journal.active.get id = some e := by
    intro id e he
    rw [hadmits.active, InsertionMap.get_set] at he
    split at he
    · cases he
      exact .inl ⟨‹_›, rfl⟩
    · exact .inr he
  constructor
  · exact hadmits.puts.exact h.exact
  · exact hadmits.puts.keeps (j := { s.journal with active := journal.active }) h.kept
  · intro id e he
    obtain ⟨rfl, rfl⟩ | he := hactive he
    · exact ⟨rfl, hvalid, hnew⟩
    · obtain ⟨hid, hv, hadm⟩ := h.active he
      exact ⟨hid, hv, hold hadm⟩
  · intro id e he
    have hquiet : Delivered s e.context ∧ e.context.valid uuid = true := by
      obtain ⟨-, rfl⟩ | he := hactive he
      · exact ⟨hdelivered, hvalid⟩
      · exact ⟨h.quiet he, (h.active he).2.1⟩
    exact hadmits.puts.delivered hquiet.2 hvalid (by rintro ⟨⟩) hquiet.1
  · intro i a hi
    rw [List.getElem?_append] at hi
    split at hi
    · exact List.mem_cons_of_mem _ (h.begun hi)
    · obtain rfl := List.mem_singleton.mp (List.mem_of_getElem? hi)
      exact List.mem_cons_self
  · intro i a hi
    rw [List.getElem?_append] at hi
    split at hi
    · obtain ho | ⟨e, hterm, hkind, hctx, hrec⟩ := h.ended hi
      · exact .inl (hopened ho)
      · exact .inr ⟨e, hterm, hkind, hctx, List.mem_cons_of_mem _ hrec⟩
    · rename_i hlen
      have hi' : i = s.admissions.length := by
        have := (List.getElem?_eq_some_iff.mp hi).1
        rw [List.length_singleton] at this
        omega
      obtain rfl := List.mem_singleton.mp (List.mem_of_getElem? hi)
      subst hi'
      exact .inl hself
  · intro d hd
    obtain hd | ⟨rfl, hadm, hfin⟩ := hcaptures d hd
    · have ht := h.captures d hd
      obtain ⟨a, ha, hctx, hstate⟩ := ht.admission
      exact ⟨ht.valid, ht.finished, a, hold ha, hctx, hstate.imp_left hopened⟩
    · refine ⟨hvalid, hfin, { context := d.context }, ?_, rfl, .inl ?_⟩
      · rw [hadm]
        exact hnew
      · rw [hadm]
        exact hself
  · exact hdistinct
  · intro ho
    dsimp only at ho
    rw [hopen] at ho
    cases ho

theorem Inv.terminals_open (h : Inv uuid s) {i : Nat} {a : Admission} (hi : s.admissions[i]? = some a)
    (ho : Open s i a.context) : a.terminals = [] := by
  obtain ⟨e, he, rfl⟩ := ho
  obtain ⟨-, -, hadm⟩ := h.active he
  rw [hi] at hadm
  cases hadm
  rfl

theorem Inv.settles (h : Inv uuid s) {i : Nat} {c d : Capture} {e : Event}
    (hd : s.captures[i]? = some d) (hadmission : c.admission = d.admission) (hc : Tracked uuid s c)
    (hfinished : c.finished = some e) (hown : Own s c) {u : Journal}
    (hputs : Puts s.journal [(e.key, e.marshal)] u) :
    Inv uuid { s with
      journal := { u with active := u.active.delete e.context.invocationId }
      captures := s.captures.set i { c with settled := true }
      admissions := s.admissions.modify c.admission fun a => a.ended e.marshal
      recorded := (e.key, e.marshal) :: s.recorded } := by
  obtain ⟨hkind, hctx⟩ := hc.finished hfinished
  obtain ⟨a, ha, hactx, hstate⟩ := hc.admission
  have hended : a.ended e.marshal = { a with terminals := [e.marshal] } := by
    unfold Admission.ended
    obtain ho | ⟨f, hf, hterm⟩ := hstate
    · rw [h.terminals_open ha (hactx ▸ ho)]
      rfl
    · rw [hfinished] at hf
      cases hf
      rw [hterm, if_pos List.mem_cons_self]
  have hother : ∀ {k : Nat}, k ≠ c.admission →
      (s.admissions.modify c.admission fun a => a.ended e.marshal)[k]? = s.admissions[k]? := by
    intro k hk
    exact List.getElem?_modify_ne _ _ (Ne.symm hk)
  have hself : (s.admissions.modify c.admission fun a => a.ended e.marshal)[c.admission]? =
      some { a with terminals := [e.marshal] } := by
    rw [List.getElem?_modify_eq, ha, ← hended]
    rfl
  have hactive : ∀ {id : Text} {f : Active}, (u.active.delete e.context.invocationId).get id = some f →
      s.journal.active.get id = some f ∧ id ≠ e.context.invocationId := by
    intro id f hf
    rw [InsertionMap.get_delete] at hf
    split at hf
    · cases hf
    · rw [hputs.active] at hf
      exact ⟨hf, ‹_›⟩
  -- the active entry that is deleted is that of the capture's own admission
  have hopened : ∀ {k : Nat} {b : Attribution}, k ≠ c.admission → Open s k b →
      ∃ f, (u.active.delete e.context.invocationId).get b.invocationId = some f ∧ f.admission = k := by
    rintro k b hk ⟨f, hf, rfl⟩
    refine ⟨f, ?_, rfl⟩
    rw [InsertionMap.get_delete, if_neg, hputs.active, hf]
    intro hid
    rw [hid, hctx] at hf
    exact hk (hown f hf)
  have hcases : ∀ {k : Nat} {b : Admission},
      (s.admissions.modify c.admission fun a => a.ended e.marshal)[k]? = some b →
      k = c.admission ∧ b = { a with terminals := [e.marshal] } ∨
        k ≠ c.admission ∧ s.admissions[k]? = some b := by
    intro k b hb
    by_cases hk : k = c.admission
    · subst hk
      rw [hself] at hb
      cases hb
      exact .inl ⟨rfl, rfl⟩
    · rw [hother hk] at hb
      exact .inr ⟨hk, hb⟩
  have hsameId : ∀ {f : Active}, s.admissions[f.admission]? = some { context := f.context } →
      f.context.invocationId ≠ e.context.invocationId → f.admission ≠ c.admission := by
    intro f hf hne heq
    rw [heq, ha] at hf
    cases hf
    exact hne (by rw [hctx, ← hactx])
  constructor
  · exact hputs.exact h.exact
  · exact hputs.keeps h.kept
  · intro id f hf
    obtain ⟨hf, hne⟩ := hactive hf
    obtain ⟨hid, hv, hadm⟩ := h.active hf
    refine ⟨hid, hv, ?_⟩
    dsimp only
    rw [hother (hsameId hadm (hid ▸ hne))]
    exact hadm
  · intro id f hf
    have hf := (hactive hf).1
    exact hputs.delivered (h.active hf).2.1 (hctx ▸ hc.valid) (by rw [hkind]; rintro ⟨⟩) (h.quiet hf)
  · intro k b hb
    obtain ⟨-, rfl⟩ | ⟨-, hb⟩ := hcases hb
    · have hbegun := h.begun ha
      exact List.mem_cons_of_mem _ hbegun
    · exact List.mem_cons_of_mem _ (h.begun hb)
  · intro k b hb
    obtain ⟨-, rfl⟩ | ⟨hk, hb⟩ := hcases hb
    · exact .inr ⟨e, rfl, .inl hkind, hctx.trans hactx.symm, List.mem_cons_self⟩
    · obtain ho | ⟨f, hterm, hfkind, hfctx, hrec⟩ := h.ended hb
      · exact .inl (hopened hk ho)
      · exact .inr ⟨f, hterm, hfkind, hfctx, List.mem_cons_of_mem _ hrec⟩
  · intro f hf
    obtain ⟨k, hk⟩ := List.getElem?_of_mem hf
    dsimp only at hk
    by_cases hik : i = k
    · subst hik
      rw [List.getElem?_set_self (List.getElem?_eq_some_iff.mp hd).1] at hk
      cases hk
      exact ⟨hc.valid, hc.finished, _, hself, hactx, .inr ⟨e, hfinished, rfl⟩⟩
    · rw [List.getElem?_set_ne hik] at hk
      have ht := h.captures f (List.mem_of_getElem? hk)
      -- two captures have not made the same admission
      have hne : f.admission ≠ c.admission := by
        intro heq
        have hi : (s.captures.map Capture.admission)[i]? = some d.admission := by
          rw [List.getElem?_map, hd]
          rfl
        have hj : (s.captures.map Capture.admission)[k]? = some d.admission := by
          rw [List.getElem?_map, hk, ← hadmission, ← heq]
          rfl
        have hlt := (List.getElem?_eq_some_iff.mp hi).1
        exact hik ((List.getElem?_inj hlt h.distinct).mp (hi.trans hj.symm))
      obtain ⟨b, hb, hbctx, hbstate⟩ := ht.admission
      exact ⟨ht.valid, ht.finished, b, (hother hne).trans hb, hbctx, hbstate.imp_left (hopened hne)⟩
  · have hset := h.setCapture hd (d := { c with settled := true }) hadmission
      ⟨hc.valid, hc.finished, hc.admission⟩
    exact hset.distinct
  · intro ho
    rw [h.closed ho] at hd
    cases hd

theorem Inv.settle (h : Inv uuid s) {i : Nat} {c d : Capture} (hd : s.captures[i]? = some d)
    (hadmission : c.admission = d.admission) (hc : Tracked uuid s c)
    (hown : c.finished ≠ none → c.settled = false → c.producers = 0 → Own s c) :
    Inv uuid (s.settle i c) := by
  have hset := h.setCapture hd hadmission hc
  unfold State.settle
  split
  · exact hset
  · rename_i e he
    split
    · exact hset
    · rename_i hready
      simp only [Bool.or_eq_true, decide_eq_true_eq, not_or, Bool.not_eq_true, not_not] at hready
      split
      · exact hset.failures _
      · rename_i journal happend
        obtain ⟨u, hputs, rfl⟩ := append_puts happend
        rw [if_pos (hc.finished he).1]
        exact h.settles hd hadmission hc he (hown (by rw [he]; nofun) hready.1 hready.2) hputs

theorem Inv.finish (h : Inv uuid s) {i : Nat} {c : Capture} (hc : s.captures[i]? = some c)
    (hown : c.settled = false → c.producers = 0 → Own s c) (occurredAt : Text) (statusCode : Nat)
    (cancelled : Bool) : Inv uuid (s.finish i c occurredAt statusCode cancelled) := by
  have ht := h.captures c (List.mem_of_getElem? hc)
  unfold State.finish
  refine h.settle hc rfl ⟨ht.valid, ?_, ?_⟩ fun _ => hown
  · intro e he
    cases hfin : c.finished with
    | none =>
      dsimp only at he
      rw [hfin] at he
      cases he
      exact ⟨rfl, rfl⟩
    | some f =>
      dsimp only at he
      rw [hfin] at he
      cases he
      exact ht.finished hfin
  · obtain ⟨a, ha, hctx, hstate⟩ := ht.admission
    refine ⟨a, ha, hctx, hstate.imp_right ?_⟩
    rintro ⟨f, hf, hterm⟩
    refine ⟨f, ?_, hterm⟩
    dsimp only
    rw [hf]
    rfl

theorem Inv.release (h : Inv uuid s) {i : Nat} {c : Capture} (hc : s.captures[i]? = some c)
    (hown : c.settled = false → c.finished ≠ none → c.producers = 1 → Own s c) (hpos : c.producers ≠ 0) :
    Inv uuid (s.settle i { c with producers := c.producers - 1 }) := by
  have ht := h.captures c (List.mem_of_getElem? hc)
  refine h.settle hc rfl ⟨ht.valid, ht.finished, ht.admission⟩ fun hfin hset hzero => ?_
  dsimp only at hfin hset hzero
  exact hown hset hfin (by omega)

theorem Inv.retainProducer {capacity : Int} (h : Inv uuid s) {i : Nat} {c : Capture}
    (hc : s.captures[i]? = some c) (hdelivered : c.settled = true → Delivered s c.context) :
    Inv uuid (s.retainProducer capacity i c) := by
  have hmem := List.mem_of_getElem? hc
  have ht := h.captures c hmem
  unfold State.retainProducer
  split
  · rename_i hsettled
    dsimp only
    split
    · exact (h.setCapture hc (d := { c with settled := false, producers := c.producers + 1 }) rfl
        ⟨ht.valid, ht.finished, ht.admission⟩).failures _
    · rename_i journal hadmit
      have hopen : s.opened = true := by
        by_contra hclosed
        rw [h.closed (Bool.not_eq_true _ ▸ hclosed)] at hc
        cases hc
      refine (h.admits ht.valid (hdelivered hsettled) (admitInvocation_admits hadmit) ?_ ?_ hopen).failures _
      · intro d hd
        obtain hd | rfl := List.mem_or_eq_of_mem_set hd
        · exact .inl hd
        · exact .inr ⟨rfl, rfl, ht.finished⟩
      · rw [List.map_set]
        refine h.distinct.set fun hin => ?_
        obtain ⟨d, hd, hlen⟩ := List.mem_map.mp hin
        obtain ⟨b, hb, -⟩ := (h.captures d hd).admission
        have := (List.getElem?_eq_some_iff.mp hb).1
        dsimp only at hlen
        omega
  · exact h.setCapture hc rfl ⟨ht.valid, ht.finished, ht.admission⟩

theorem Inv.observe (h : Inv uuid s) {c : Capture} (hc : c ∈ s.captures) {e : Event}
    (hctx : e.context = c.context) (hkind : e.kind ≠ .finished ∧ e.kind ≠ .interrupted) :
    Inv uuid (s.observe e) := by
  unfold State.observe
  split
  · exact h.failures _
  · rename_i journal happend
    obtain ⟨u, hputs, rfl⟩ := append_puts happend
    rw [if_neg hkind.1]
    have hopened : ∀ {k : Nat} {b : Attribution}, Open s k b →
        ∃ f, u.active.get b.invocationId = some f ∧ f.admission = k := by
      rintro k b ⟨f, hf, hk⟩
      exact ⟨f, by rw [hputs.active, hf], hk⟩
    constructor
    · exact hputs.exact h.exact
    · exact hputs.keeps h.kept
    · intro id f hf
      exact h.active (hputs.active ▸ hf)
    · intro id f hf
      have hf := hputs.active ▸ hf
      exact hputs.delivered (h.active hf).2.1 (hctx ▸ (h.captures c hc).valid) hkind.2 (h.quiet hf)
    · intro k b hb
      have hbegun := h.begun hb
      exact List.mem_cons_of_mem _ hbegun
    · intro k b hb
      obtain ho | ⟨f, hterm, hfkind, hfctx, hrec⟩ := h.ended hb
      · exact .inl (hopened ho)
      · exact .inr ⟨f, hterm, hfkind, hfctx, List.mem_cons_of_mem _ hrec⟩
    · intro d hd
      have ht := h.captures d hd
      obtain ⟨b, hb, hbctx, hbstate⟩ := ht.admission
      exact ⟨ht.valid, ht.finished, b, hb, hbctx, hbstate.imp_left hopened⟩
    · exact h.distinct
    · exact h.closed

theorem Inv.deliver (h : Inv uuid s) (items : List (Text × Text)) : Inv uuid (s.deliver items) := by
  unfold State.deliver
  split
  · exact h
  · split
    · exact h
    · rename_i journal hack
      have hdrops := acknowledge_drops hack
      have hopened : ∀ {k : Nat} {b : Attribution}, Open s k b →
          ∃ f, journal.active.get b.invocationId = some f ∧ f.admission = k := by
        rintro k b ⟨f, hf, hk⟩
        exact ⟨f, by rw [hdrops.active, hf], hk⟩
      constructor
      · exact hdrops.exact h.exact
      · intro r hr
        obtain hr | hr := h.kept r hr
        · obtain hleft | hin := hdrops.kept hr
          · exact .inl hleft
          · exact .inr (List.mem_append_left _ (List.mem_filter.mpr ⟨hin, decide_eq_true hr⟩))
        · exact .inr (List.mem_append_right _ hr)
      · intro id f hf
        exact h.active (hdrops.active ▸ hf)
      · intro id f hf
        have hquiet := h.quiet (hdrops.active ▸ hf)
        unfold Delivered at hquiet ⊢
        by_contra hsome
        obtain ⟨raw, hraw⟩ := Option.ne_none_iff_exists'.mp hsome
        rw [hdrops.only hraw] at hquiet
        cases hquiet
      · exact h.begun
      · intro k b hb
        exact (h.ended hb).imp_left hopened
      · intro d hd
        have ht := h.captures d hd
        obtain ⟨b, hb, hbctx, hbstate⟩ := ht.admission
        exact ⟨ht.valid, ht.finished, b, hb, hbctx, hbstate.imp_left hopened⟩
      · exact h.distinct
      · exact h.closed

theorem Inv.mem_admitted (h : Inv uuid s) {e : Text × Active} (he : e ∈ admitted s.journal) :
    s.journal.active.get e.2.context.invocationId = some e.2 := by
  have hget : s.journal.active.get e.1 = some e.2 := InsertionMap.mem_entries.mp (mem_sortBy.mp he)
  rw [(h.active hget).1, hget]

theorem Inv.opens (h : Inv uuid s) {now : Text} (hnow : isTimestamp now = true) :
    ∃ j, openJournal s.journal now = .ok j := by
  have hids : ((admitted s.journal).map fun e => e.2.context.invocationId).Nodup := by
    have hkeys : ((admitted s.journal).map fun e => e.2.context.invocationId) =
        (admitted s.journal).map Prod.fst := by
      refine List.map_congr_left fun e he => ?_
      exact (h.active (InsertionMap.mem_entries.mp (mem_sortBy.mp he))).1
    rw [hkeys]
    exact ((perm_sortBy _).map Prod.fst).nodup_iff.mpr s.journal.active.nodup
  obtain ⟨j, hj⟩ := interrupt_ok hnow hids (fun e he => (h.active (h.mem_admitted he)).2.1)
    fun e he => h.quiet (h.mem_admitted he)
  unfold openJournal
  rw [hj]
  exact ⟨_, rfl⟩

theorem openJournal_puts {j t : Journal} {now : Text} (h : openJournal j now = .ok t) :
    ∃ u, Puts j (interruptions now (admitted j)) u ∧ t = { u with active := {} } := by
  unfold openJournal at h
  split at h
  · cases h
  · rename_i u hu
    cases h
    exact ⟨u, interrupt_puts hu, rfl⟩

theorem Inv.find_open (h : Inv uuid s) {i : Nat} {a : Admission} (hi : s.admissions[i]? = some a)
    (ho : Open s i a.context) :
    ∃ e ∈ admitted s.journal, (admitted s.journal).find? (fun e => e.2.admission = i) = some e ∧
      e.2.context = a.context := by
  obtain ⟨f, hf, hfi⟩ := ho
  have hmem : (a.context.invocationId, f) ∈ admitted s.journal :=
    mem_sortBy.mpr (InsertionMap.mem_entries.mpr hf)
  cases hfind : (admitted s.journal).find? fun e => e.2.admission = i with
  | none =>
    have := List.find?_eq_none.mp hfind _ hmem
    exact absurd hfi (by simpa using this)
  | some e =>
    have he := List.mem_of_find?_eq_some hfind
    have hei : e.2.admission = i := by simpa using List.find?_some hfind
    obtain ⟨-, -, hadm⟩ := h.active (h.mem_admitted he)
    rw [hei, hi] at hadm
    cases hadm
    exact ⟨e, he, rfl, rfl⟩

theorem Inv.find_ended (h : Inv uuid s) {i : Nat} {a : Admission} (hi : s.admissions[i]? = some a)
    (hended : Ended s a) : (admitted s.journal).find? (fun e => e.2.admission = i) = none := by
  refine List.find?_eq_none.mpr fun e he => ?_
  rw [decide_eq_true_eq]
  intro hei
  obtain ⟨-, -, hadm⟩ := h.active (h.mem_admitted he)
  rw [hei, hi] at hadm
  cases hadm
  obtain ⟨f, hterm, -⟩ := hended
  cases hterm

theorem Inv.start (h : Inv uuid s) (now : Text) :
    Inv uuid (s.start now) ∧ (s.opened = false → (s.start now).opened = true →
      ∀ a ∈ (s.start now).admissions, Ended (s.start now) a) := by
  unfold State.start
  split
  · rename_i hopened
    exact ⟨h, fun hclosed => absurd hopened (by rw [hclosed]; decide)⟩
  · rename_i hclosed
    split
    · exact ⟨h, fun _ hopened => absurd hopened hclosed⟩
    · rename_i journal hopen
      obtain ⟨u, hputs, rfl⟩ := openJournal_puts hopen
      have hcaptures : s.captures = [] := h.closed (by simpa using hclosed)
      have hrecorded : ∀ {r}, r ∈ s.recorded → r ∈ interruptions now (admitted s.journal) ++ s.recorded :=
        List.mem_append_right _
      have hbefore : ∀ {k : Nat} {b : Admission}, (s.admissions.mapIdx fun i a =>
          match (admitted s.journal).find? fun e => e.2.admission = i with
          | some e => a.ended (interrupted e.2.context now).marshal
          | none => a)[k]? = some b →
          ∃ a, s.admissions[k]? = some a ∧ b.context = a.context ∧ ∃ e : Event,
            b.terminals = [e.marshal] ∧ (e.kind = .finished ∨ e.kind = .interrupted) ∧
            e.context = a.context ∧ (e.key, e.marshal) ∈ interruptions now (admitted s.journal) ++ s.recorded := by
        intro k b hb
        rw [List.getElem?_mapIdx] at hb
        obtain ⟨a, ha, rfl⟩ := Option.map_eq_some_iff.mp hb
        refine ⟨a, ha, ?_⟩
        obtain ho | hended := h.ended ha
        · obtain ⟨e, he, hfind, hctx⟩ := h.find_open ha ho
          rw [hfind]
          refine ⟨rfl, interrupted e.2.context now, ?_, .inr rfl, hctx, ?_⟩
          · unfold Admission.ended
            rw [h.terminals_open ha ho]
            rfl
          · exact List.mem_append_left _ (List.mem_map.mpr ⟨e, he, rfl⟩)
        · rw [h.find_ended ha hended]
          obtain ⟨e, hterm, hkind, hctx, hrec⟩ := hended
          exact ⟨rfl, e, hterm, hkind, hctx, hrecorded hrec⟩
      refine ⟨?_, fun _ _ a ha => ?_⟩
      · constructor
        · exact hputs.exact h.exact
        · exact hputs.keeps h.kept
        · nofun
        · nofun
        · intro k b hb
          obtain ⟨a, ha, hctx, -⟩ := hbefore hb
          rw [hctx]
          exact hrecorded (h.begun ha)
        · intro k b hb
          obtain ⟨a, ha, hctx, e, hterm, hkind, hectx, hrec⟩ := hbefore hb
          exact .inr ⟨e, hterm, hkind, hectx.trans hctx.symm, hrec⟩
        · intro d hd
          rw [hcaptures] at hd
          cases hd
        · exact h.distinct
        · nofun
      · obtain ⟨k, hk⟩ := List.getElem?_of_mem ha
        obtain ⟨b, -, hctx, e, hterm, hkind, hectx, hrec⟩ := hbefore hk
        exact ⟨e, hterm, hkind, hectx.trans hctx.symm, hrec⟩

theorem Inv.crash (h : Inv uuid s) : Inv uuid { s with opened := false, captures := [] } where
  exact := h.exact
  kept := h.kept
  active := h.active
  quiet := h.quiet
  begun := h.begun
  ended := h.ended
  captures := List.forall_mem_nil _
  distinct := List.nodup_nil
  closed _ := rfl

theorem Inv.request {capacity : Int} (h : Inv uuid s) {ctx : Attribution} (hvalid : ctx.valid uuid = true)
    (hdelivered : Delivered s ctx) : Inv uuid (s.request capacity ctx) := by
  unfold State.request
  split
  · exact h
  · rename_i hopen
    split
    · exact h
    · rename_i journal hadmit
      refine h.admits hvalid hdelivered (admitInvocation_admits hadmit) ?_ ?_ (by simpa using hopen)
      · intro d hd
        obtain hd | rfl := mem_snoc.mp hd
        · exact .inl hd
        · exact .inr ⟨rfl, rfl, nofun⟩
      · rw [List.map_append]
        refine List.nodup_append.mpr ⟨h.distinct, List.nodup_singleton _, ?_⟩
        rintro i hi j hj rfl
        obtain ⟨d, hd, rfl⟩ := List.mem_map.mp hi
        obtain ⟨b, hb, -⟩ := (h.captures d hd).admission
        have := (List.getElem?_eq_some_iff.mp hb).1
        have := List.mem_singleton.mp hj
        dsimp only at this
        omega

theorem inv_init : Inv uuid {} where
  exact := rfl
  kept := nofun
  active := nofun
  quiet := nofun
  begun := nofun
  ended := nofun
  captures := List.forall_mem_nil _
  distinct := List.nodup_nil
  closed _ := rfl

theorem inv_act {capacity : Int} (h : Inv uuid s) {a : Action} (hcareful : Careful s a)
    (hact : act uuid capacity s a = some t) : Inv uuid t := by
  cases a with
  | request ctx =>
    unfold act at hact
    dsimp only at hact
    split at hact
    · rw [← Option.some.inj hact]
      exact h.request ‹_› hcareful
    · cases hact
  | finish i occurredAt statusCode cancelled =>
    obtain ⟨c, hc, rfl⟩ := Option.map_eq_some_iff.mp hact
    exact h.finish hc (hcareful c hc) occurredAt statusCode cancelled
  | retain i =>
    obtain ⟨c, hc, rfl⟩ := Option.map_eq_some_iff.mp hact
    exact h.retainProducer hc (hcareful c hc)
  | release i =>
    unfold act at hact
    dsimp only at hact
    split at hact
    · rename_i c hc
      split at hact
      · cases hact
      · rw [← Option.some.inj hact]
        exact h.release hc (hcareful c hc) ‹_›
    · cases hact
  | attempt i executionId occurredAt =>
    unfold act at hact
    dsimp only at hact
    split at hact
    · rename_i c hc
      split at hact
      · cases hact
      · rw [← Option.some.inj hact]
        refine h.observe (List.mem_of_getElem? hc) ?_ ⟨?_, ?_⟩
        · rfl
        · exact Kind.noConfusion
        · exact Kind.noConfusion
    · cases hact
  | usage i executionId occurredAt fact =>
    unfold act at hact
    dsimp only at hact
    split at hact
    · rename_i c hc
      split at hact
      · cases hact
      · rw [← Option.some.inj hact]
        refine h.observe (List.mem_of_getElem? hc) ?_ ⟨?_, ?_⟩
        · rfl
        · exact Kind.noConfusion
        · exact Kind.noConfusion
    · cases hact
  | acknowledge items =>
    rw [← Option.some.inj hact]
    exact h.deliver items
  | start now =>
    unfold act at hact
    dsimp only at hact
    split at hact
    · rw [← Option.some.inj hact]
      exact (h.start now).1
    · cases hact
  | crash =>
    cases hact
    exact h.crash

theorem inv_reach {capacity : Int} {as : List Action}
    (h : Reach ((system uuid capacity).guard Careful) as s) : Inv uuid s := by
  refine h.invariant (Inv uuid) ?_ ?_
  · rintro _ rfl
    exact inv_init
  · rintro s a t hinv ⟨hcareful, hact⟩
    exact inv_act hinv hcareful hact

/-! ## What is kept -/

def Keeps (s : State) (a : Action) (t : State) : Prop :=
  ∀ k raw, s.journal.pending.get k = some raw →
    t.journal.pending.get k = some raw ∨ ∃ items, a = .acknowledge items ∧ (k, raw) ∈ items

theorem settle_pending {i : Nat} {c : Capture} {k raw : Text} (h : s.journal.pending.get k = some raw) :
    (s.settle i c).journal.pending.get k = some raw := by
  unfold State.settle
  split
  · exact h
  · split
    · exact h
    · split
      · exact h
      · rename_i journal happend
        obtain ⟨u, hputs, rfl⟩ := append_puts happend
        split
        · exact hputs.kept h
        · exact hputs.kept h

theorem observe_pending {e : Event} {k raw : Text} (h : s.journal.pending.get k = some raw) :
    (s.observe e).journal.pending.get k = some raw := by
  unfold State.observe
  split
  · exact h
  · rename_i journal happend
    obtain ⟨u, hputs, rfl⟩ := append_puts happend
    split
    · exact hputs.kept h
    · exact hputs.kept h

theorem act_keeps {capacity : Int} {a : Action} (hact : act uuid capacity s a = some t) : Keeps s a t := by
  intro k raw h
  cases a with
  | request ctx =>
    unfold act at hact
    dsimp only at hact
    split at hact
    · rw [← Option.some.inj hact]
      left
      unfold State.request
      split
      · exact h
      · split
        · exact h
        · rename_i hadmit
          exact (admitInvocation_admits hadmit).puts.kept h
    · cases hact
  | finish i occurredAt statusCode cancelled =>
    obtain ⟨c, -, rfl⟩ := Option.map_eq_some_iff.mp hact
    exact .inl (settle_pending h)
  | retain i =>
    obtain ⟨c, -, rfl⟩ := Option.map_eq_some_iff.mp hact
    left
    unfold State.retainProducer
    split
    · dsimp only
      split
      · exact h
      · rename_i hadmit
        exact (admitInvocation_admits hadmit).puts.kept h
    · exact h
  | release i =>
    unfold act at hact
    dsimp only at hact
    split at hact
    · split at hact
      · cases hact
      · rw [← Option.some.inj hact]
        exact .inl (settle_pending h)
    · cases hact
  | attempt i executionId occurredAt =>
    unfold act at hact
    dsimp only at hact
    split at hact
    · split at hact
      · cases hact
      · rw [← Option.some.inj hact]
        exact .inl (observe_pending h)
    · cases hact
  | usage i executionId occurredAt fact =>
    unfold act at hact
    dsimp only at hact
    split at hact
    · split at hact
      · cases hact
      · rw [← Option.some.inj hact]
        exact .inl (observe_pending h)
    · cases hact
  | acknowledge items =>
    rw [← Option.some.inj hact]
    unfold State.deliver
    split
    · exact .inl h
    · split
      · exact .inl h
      · rename_i hack
        obtain hleft | hin := (acknowledge_drops hack).kept h
        · exact .inl hleft
        · exact .inr ⟨items, rfl, hin⟩
  | start now =>
    unfold act at hact
    dsimp only at hact
    split at hact
    · rw [← Option.some.inj hact]
      left
      unfold State.start
      split
      · exact h
      · split
        · exact h
        · rename_i hopen
          obtain ⟨u, hputs, rfl⟩ := openJournal_puts hopen
          exact hputs.kept h
    · cases hact
  | crash =>
    cases hact
    exact .inl h

theorem start_opened (hclosed : s.opened = false) {now : Text} {j : Journal}
    (hj : openJournal s.journal now = .ok j) : (s.start now).opened = true := by
  unfold State.start
  rw [hclosed, hj]
  rfl

/-- In every careful run the journal opens again at any time, with every admission ended by exactly one
event; nothing that was recorded is lost or changed before it is acknowledged; and the counter is exact. -/
theorem journal_reopens {capacity : Int} {as : List Action}
    (h : Reach ((system uuid capacity).guard Careful) as s) :
    (∀ now, isTimestamp now = true → ∃ j, openJournal s.journal now = .ok j) ∧
      (∀ (i : Nat) a, s.admissions[i]? = some a →
        ((started a.context).key, (started a.context).marshal) ∈ s.recorded ∧
          (Open s i a.context ∧ a.terminals = [] ∨ Ended s a)) ∧
      (∀ now, s.opened = false → isTimestamp now = true →
        ∀ a ∈ (s.start now).admissions, Ended (s.start now) a) ∧
      (∀ r ∈ s.recorded, s.journal.pending.get r.1 = some r.2 ∨ r ∈ s.acknowledged) ∧
      (∀ a t, act uuid capacity s a = some t → Keeps s a t) ∧ Exact s.journal := by
  have hinv := inv_reach h
  refine ⟨fun now => hinv.opens, fun i a ha => ⟨hinv.begun ha, ?_⟩, fun now hclosed hnow => ?_, hinv.kept,
    fun a t => act_keeps, hinv.exact⟩
  · exact (hinv.ended ha).imp_left fun ho => ⟨ho, hinv.terminals_open ha ho⟩
  · obtain ⟨j, hj⟩ := hinv.opens hnow
    exact (hinv.start now).2 hclosed (start_opened hclosed hj)

/-! ## A run after which the journal never opens -/

instance (s : State) (ctx : Attribution) : Decidable (Delivered s ctx) := by
  unfold Delivered
  infer_instance

/-- The requests that `Careful` allows; the other actions as they are, but those of a capture. -/
def carefulAct (uuid : UuidParser) (capacity : Int) (s : State) : Action → Option State
  | .request ctx => if Delivered s ctx then act uuid capacity s (.request ctx) else none
  | .acknowledge items => act uuid capacity s (.acknowledge items)
  | .start now => act uuid capacity s (.start now)
  | .crash => act uuid capacity s .crash
  | _ => none

theorem carefulAct_step {capacity : Int} {a : Action} (h : carefulAct uuid capacity s a = some t) :
    ((system uuid capacity).guard Careful).step s a t := by
  unfold carefulAct at h
  split at h
  · split at h
    · exact ⟨‹_›, h⟩
    · cases h
  · exact ⟨trivial, h⟩
  · exact ⟨trivial, h⟩
  · exact ⟨trivial, h⟩
  · cases h

/-- The form of 36 characters. -/
def canonicalUuid : UuidParser where
  accepts t := t.length = 36 && size t = 36 &&
    (t.mapIdx fun i c =>
      if i = 8 ∨ i = 13 ∨ i = 18 ∨ i = 23 then decide (c = Char.ofNat 45)
      else c.isDigit || decide (97 ≤ c.toNat ∧ c.toNat ≤ 102) || decide (65 ≤ c.toNat ∧ c.toNat ≤ 70)).all id
  short t h := by
    simp only [Bool.and_eq_true, decide_eq_true_eq] at h
    omega
  apart t u h := by
    simp only [Bool.and_eq_true, decide_eq_true_eq] at h
    have hlong : (t ++ Char.ofNat 58 :: u).length ≠ 36 := by
      rw [List.length_append, List.length_cons]
      omega
    rw [decide_eq_false hlong]
    rfl

def oneRequest : Attribution :=
  { invocationId := "6f1d0a52-7c3e-4b8a-9d21-0e5f6a7b8c9d".toList
    tenantId := "0b1c2d3e-4f50-4617-8293-a4b5c6d7e8f9".toList
    sessionId := "1c2d3e4f-5061-4728-93a4-b5c6d7e8f90a".toList
    runId := "2d3e4f50-6172-4839-a4b5-c6d7e8f90a1b".toList
    requestedAt := "2026-01-02T03:04:05.000Z".toList
    provider := "openai".toList
    model := "gpt-5".toList
    purpose := "agent".toList }

def firstStart : Text := "2026-01-02T03:04:00.000Z".toList

def secondStart : Text := "2026-01-02T03:05:00.000Z".toList

def thirdStart : Text := "2026-01-02T03:06:00.000Z".toList

theorem journal_reopens_once : ∃ s, Reach ((system canonicalUuid 1000000).guard Careful)
      [.start firstStart, .request oneRequest, .crash] s ∧ s.opened = false ∧ s.admissions.length = 1 ∧
    (∃ j, openJournal s.journal secondStart = .ok j) ∧
    ∀ a ∈ (s.start secondStart).admissions, Ended (s.start secondStart) a := by
  have hrun : ([Action.start firstStart, .request oneRequest, .crash].foldlM
      (carefulAct canonicalUuid 1000000) {}).map (fun s => (s.opened, s.admissions.length)) =
      some (false, 1) := by decide +kernel
  obtain ⟨s, hs, hshape⟩ := Option.map_eq_some_iff.mp hrun
  obtain ⟨hclosed, hone⟩ := Prod.mk.inj hshape
  have hreach := (Reach.init rfl).foldlM (fun _ _ _ => carefulAct_step) _ hs
  obtain ⟨hopens, -, hended, -⟩ := journal_reopens hreach
  exact ⟨s, hreach, hclosed, hone, hopens secondStart (by decide), hended secondStart hclosed (by decide)⟩

/-- A request that was interrupted is made again before its interruption is delivered, and interrupted
again: the journal cannot take in the second interruption. -/
theorem journal_stuck : ¬ ∀ (uuid : UuidParser) (capacity : Int) as s, Reach (system uuid capacity) as s →
    ∀ now, isTimestamp now = true → ∃ j, openJournal s.journal now = .ok j := by
  intro hclaim
  have hrun : ([Action.start firstStart, .request oneRequest, .crash, .start secondStart,
      .request oneRequest, .crash].foldlM (act canonicalUuid 1000000) {}).map (fun s =>
        match openJournal s.journal thirdStart with
        | .ok _ => false
        | .error _ => true) = some true := by decide +kernel
  obtain ⟨s, hs, hfails⟩ := Option.map_eq_some_iff.mp hrun
  have hreach := (Reach.init rfl).foldlM (S := system canonicalUuid 1000000) (fun _ _ _ h => h) _ hs
  obtain ⟨j, hj⟩ := hclaim canonicalUuid 1000000 _ s hreach thirdStart (by decide)
  rw [hj] at hfails
  cases hfails

end Metering
end Gateway
end PiCloud
